import HybridGradient.Proofs.BalancedProblem
import HybridGradient.Proofs.PowerRange
import HybridGradient.Proofs.StepSize

/-!
# When the step size is usable

A run can only move with a step size that is a positive number. Nobody checks this of a step
size that is left to be chosen, which is 0.99 over the estimated norm and usable exactly if the
estimate is a positive number. Where the squares of the coefficients overflow, the estimate is
infinite and the step size zero; where they vanish, all start vectors appear to be annihilated,
and it is infinite. For problems that are moderate, and stay so when they are balanced, it is
positive or infinite, and it is usable if no coefficient is negative.

* `Binary.IsNorm`: what the power method finds, a root of a positive number, an infinity or no
  number;
* `SpectralNorm.Unmeasured`, `SpectralNorm.norm_estimate_cases`: when it finds nothing;
* `Params.Tempers`: the problems that stay moderate;
* `Params.chooseStepSize_cases`, `Params.stepSize_usable_iff`: the step size that is chosen;
* `Params.exists_stepSize_unusable`: problems for which it is zero or infinite.
-/

namespace HybridGradient

open Extended Binary Rounding Float.Model

/-! ### Norms and what is divided by them -/

namespace Binary

section

variable {α : Type} [Binary α] [Scalar α] [LawfulBinary α] {x y : α}

/-- A scalar that a pass of the power method may lead to: the root of a positive number, an
    infinity, or no number. -/
inductive IsNorm : α → Prop
  | root {x : α} (h : IsPositive x) : IsNorm (Scalar.sqrt x)
  | top {x : α} (h : value x = .top) : IsNorm x
  | undefined {x : α} (h : IsUndefined x) : IsNorm x

theorem isNorm_sqrt (h : 0 < x) : IsNorm (Scalar.sqrt x) := by
  rcases pos_iff.1 h with hpos | htop
  · exact .root hpos
  · refine .top ?_
    rw [value, LawfulBinary.unpack_sqrt, unpack_of_top htop]
    exact congrArg ofUnpacked (stored_infinity _)

/-- What is divided by something that is no number is none. -/
theorem IsUndefined.div_right (hy : IsUndefined y) (x : α) : IsUndefined (x / y) := by
  rw [isUndefined_iff] at hy ⊢
  rw [LawfulBinary.unpack_div, hy]
  rcases unpack x with s | _ | s | ⟨s, m, e, hm⟩
  all_goals exact stored_notANumber

theorem value_div_zero {a : ℝ} (hx : value x = .real a) (ha : 0 < a)
    (hy : unpack y = .zero .positive) : value (x / y) = .top := by
  obtain ⟨m, e, hm, hux, -⟩ := exists_unpack_pos hx ha
  rw [value, LawfulBinary.unpack_div, hux, hy]
  exact congrArg ofUnpacked (stored_infinity _)

end

variable {α : Type} [Binary α] [Scalar α] [ConvertingBinary α] {c x y : α}

theorem IsPositive.div_sqrt (hx : IsPositive x) {a : ℝ} (hc : value c = .real a)
    (hle : 2 ^ (-1 : ℤ) ≤ a) (hone : a ≤ 1) : IsPositive (c / Scalar.sqrt x) := by
  obtain ⟨r, k, hr, hkr, hrk, hmin, hmax⟩ := hx.exists_log_sqrt
  have hrpos : 0 < r := (by positivity : (0 : ℝ) < 2 ^ k).trans_le hkr
  have hbits := ConvertingBinary.mantissaBits_le_exponentBias (α := α)
  have hdigits := le_mantissaBits (α := α)
  have hexponent := minExponent_eq (format α)
  have hlower : 2 ^ (-1 - (k + 1)) ≤ a / r := by
    rw [zpow_sub₀ two_ne_zero]
    exact div_le_div₀ ((by positivity : (0 : ℝ) ≤ 2 ^ (-1 : ℤ)).trans hle) hle hrpos hrk.le
  have hupper : a / r ≤ 2 ^ (-k) := by
    rw [zpow_neg, ← one_div]
    exact div_le_div₀ zero_le_one hone (by positivity) hkr
  obtain ⟨b, hb, hle, -⟩ := (rounds_div hc hr hrpos.ne').exists_between_two_pow hlower hupper
    (by omega) (by omega)
  exact ⟨b, hb, (by positivity : (0 : ℝ) < 2 ^ (-1 - (k + 1))).trans_le hle⟩

/-- The quotient of a number from one half to one and a norm. -/
theorem IsNorm.div_cases (hy : IsNorm y) {a : ℝ} (hc : value c = .real a)
    (hle : 2 ^ (-1 : ℤ) ≤ a) (hone : a ≤ 1) :
    IsPositive y ∧ IsPositive (c / y) ∨ value y = .top ∧ value (c / y) = .real 0 ∨
      IsUndefined y ∧ IsUndefined (c / y) := by
  cases hy with
  | root h => exact .inl ⟨h.sqrt, h.div_sqrt hc hle hone⟩
  | top h => exact .inr (.inl ⟨h, value_div_infinite hc (.inl h)⟩)
  | undefined h => exact .inr (.inr ⟨h, h.div_right c⟩)

theorem exists_value_stepSizeFactor :
    ∃ a, value (Scalar.ofBinary64 stepSizeFactor : α) = .real a ∧ 2 ^ (-1 : ℤ) ≤ a ∧ a ≤ 1 := by
  have hfactor : value stepSizeFactor = .real stepFactor := ofBinary64_stepSizeFactor
  have hmin : (format α).minExponent ≤ -1 := by
    have hdigits := le_mantissaBits (α := α)
    rw [minExponent_eq]
    omega
  have hlower : 2 ^ (-1 : ℤ) ≤ stepFactor := by
    rw [stepFactor]
    norm_num
  have hupper : stepFactor ≤ 2 ^ (0 : ℤ) := stepFactor_lt_one.le.trans_eq (zpow_zero 2).symm
  obtain ⟨a, ha, hle, hone⟩ := (ConvertingBinary.rounds_ofBinary64 hfactor).exists_between_two_pow
    hlower hupper hmin (by omega)
  exact ⟨a, ha, hle, hone.trans_eq (zpow_zero 2)⟩

end Binary

/-! ### The estimated norm -/

namespace SpectralNorm

variable {α : Type} [Scalar α] {A : SparseMatrix α} {passes : ℕ} {tolerance : α}

/-- Nothing is found out about a matrix: it has no rows or no columns, no pass is made, or all
    start vectors are annihilated. -/
def Unmeasured (A : SparseMatrix α) (passes : ℕ) (tolerance : α) : Prop :=
  A.rows = 0 ∨ A.cols = 0 ∨ passes = 0 ∨ ∀ seed ∈ [0, 1, 2],
    powerMethod A passes tolerance (startVector A.cols (UInt64.ofNat seed)) = .annihilated

/-- An estimate from several start vectors has what each of them leads to, unless all of them
    are annihilated. -/
theorem norm_estimateFrom_cases {P : α → Prop} (hP : ∀ seed norm settledAt,
      powerMethod A passes tolerance (startVector A.cols (UInt64.ofNat seed)) =
        .estimated norm settledAt → P norm) (seeds : List ℕ) :
    (estimateFrom A passes tolerance seeds).norm = 0 ∧ (∀ seed ∈ seeds,
      powerMethod A passes tolerance (startVector A.cols (UInt64.ofNat seed)) = .annihilated) ∨
    P (estimateFrom A passes tolerance seeds).norm ∧ ∃ seed ∈ seeds,
      powerMethod A passes tolerance (startVector A.cols (UInt64.ofNat seed)) ≠ .annihilated := by
  induction seeds with
  | nil => exact .inl ⟨rfl, fun _ h => absurd h List.not_mem_nil⟩
  | cons seed seeds ih =>
    rw [estimateFrom]
    split
    · rename_i hfound
      exact .inr ⟨hP _ _ _ hfound, seed, List.mem_cons_self, by simp [hfound]⟩
    · rename_i hannihilated
      rcases ih with ⟨hnorm, hall⟩ | ⟨hnorm, seed', hseed', hne⟩
      · exact .inl ⟨hnorm, List.forall_mem_cons.2 ⟨hannihilated, hall⟩⟩
      · exact .inr ⟨hnorm, seed', List.mem_cons_of_mem seed hseed', hne⟩

theorem norm_estimate_cases [Binary α] [LawfulBinary α] {P : α → Prop}
    (hP : 0 < A.cols → 0 < passes → ∀ seed norm settledAt,
      powerMethod A passes tolerance (startVector A.cols (UInt64.ofNat seed)) =
        .estimated norm settledAt → P norm) :
    unpack (estimate A passes tolerance).norm = .zero .positive ∧ Unmeasured A passes tolerance ∨
      P (estimate A passes tolerance).norm ∧ ¬ Unmeasured A passes tolerance := by
  rw [estimate]
  split
  · rename_i hempty
    exact .inl ⟨LawfulBinary.unpack_zero, hempty.imp_right .inl⟩
  · rename_i hshape
    rw [not_or] at hshape
    obtain ⟨hrows, hcols⟩ := hshape
    rcases Nat.eq_zero_or_pos passes with rfl | hpasses
    · -- Without a pass, the root of zero is left.
      exact .inl ⟨unpack_sqrt_zero LawfulBinary.unpack_zero, .inr (.inr (.inl rfl))⟩
    · rcases norm_estimateFrom_cases (hP (Nat.pos_of_ne_zero hcols) hpasses) [0, 1, 2] with
        ⟨hnorm, hall⟩ | ⟨hnorm, seed, hseed, hne⟩
      · rw [hnorm]
        exact .inl ⟨LawfulBinary.unpack_zero, .inr (.inr (.inr hall))⟩
      · refine .inr ⟨hnorm, ?_⟩
        rintro (h | h | h | hall)
        · exact hrows h
        · exact hcols h
        · exact hpasses.ne' h
        · exact hne (hall seed hseed)

theorem isNorm_powerMethodFrom [Binary α] [LawfulBinary α] {remaining i : ℕ} {v : Vec α}
    {square norm : α} {settledAt : Option ℕ} (h0 : 0 < remaining ∨ 0 < square)
    (hfound : powerMethodFrom A tolerance remaining i v square = .estimated norm settledAt) :
    IsNorm norm := by
  induction remaining generalizing i v square with
  | zero =>
    rw [powerMethodFrom] at hfound
    obtain ⟨rfl, -⟩ := Outcome.estimated.inj hfound
    exact isNorm_sqrt (h0.resolve_left (lt_irrefl 0))
  | succ remaining ih =>
    rw [powerMethodFrom] at hfound
    split at hfound
    · cases hfound
    · rename_i hzero
      split at hfound
      · -- What is neither zero nor positive is no number.
        rename_i hpos
        obtain ⟨rfl, -⟩ := Outcome.estimated.inj hfound
        rcases sqrt_cases (Vec.inner (gram A v) (gram A v)) with h0 | hpos' | hundefined
        · exact absurd (beq_iff.2 ⟨h0.trans value_zero.symm, by simp [h0]⟩) hzero
        · exact absurd hpos' hpos
        · exact .undefined hundefined
      · rename_i hpos
        rw [not_not] at hpos
        split at hfound
        · obtain ⟨rfl, -⟩ := Outcome.estimated.inj hfound
          exact isNorm_sqrt hpos
        · exact ih (.inr hpos) hfound

/-- What is found out about a moderate matrix is a positive number. -/
theorem isPositive_norm_estimate [Binary α] [ConvertingBinary α] {h q : ℕ}
    (hA : A.Temperate h q) (hmeasured : ¬ Unmeasured A passes tolerance) :
    IsPositive (estimate A passes tolerance).norm := by
  refine ((norm_estimate_cases fun hcols hpasses seed _ _ hfound => ?_).resolve_left
    fun h => hmeasured h.2).1
  exact isPositive_powerMethodFrom hA (startVector_bounds hA hcols _).1 (.inl hpasses) hfound

/-- Something is found out about a moderate matrix with a coefficient other than zero, if none
    is negative and a pass is made. -/
theorem not_unmeasured [Binary α] [ConvertingBinary α] {h q : ℕ} (hA : A.Temperate h q)
    (hA0 : ∀ e ∈ A.entries, AtLeast 0 e.value) (hne : ∃ e ∈ A.entries, value e.value ≠ .real 0)
    (hpasses : passes ≠ 0) : ¬ Unmeasured A passes tolerance := by
  obtain ⟨e, he, hvalue⟩ := hne
  obtain ⟨hrow, hcol⟩ := A.inBounds e he
  rintro (h | h | h | hall)
  · omega
  · omega
  · exact hpasses h
  · exact (alive_startVector hA ⟨e, he, hvalue⟩ _).powerMethodFrom_ne hA hA0 _ _ _
      (hall 0 List.mem_cons_self)

end SpectralNorm

/-! ### Problems that stay moderate -/

/-- An entry in the place of another one: its value is a number of the same sign, and
    moderate. -/
def Entry.Replaces {α : Type} [Binary α] (h : ℕ) (e f : Entry α) : Prop :=
  ∃ a b, Binary.value e.value = .real a ∧ Binary.value f.value = .real b ∧ (b = 0 ↔ a = 0) ∧
    (0 ≤ a → 0 ≤ b) ∧ (b ≠ 0 → |Real.logb 2 b| ≤ h)

namespace Params

variable {α : Type} [Scalar α]

section

variable [Binary α]

/-- The logarithms of the coefficients on which a run works, if those of the given ones are no
    greater than `h`. -/
def logBound (par : Params α) (h : ℕ) : ℕ := if par.rescale then 2 * h + 1 else h

/-- A problem that is moderate, and stays so when it is balanced as the parameters say. -/
structure Tempers (par : Params α) (p : Problem α) (h q : ℕ) : Prop where
  moderate : p.matrix.Moderate h
  temperate : p.matrix.Temperate (par.logBound h) q
  leastFactor : par.rescale = true → 0 < par.leastFactor ∧ par.leastFactor ≤ 1
  passes : par.rescale = true →
    (par.meanPasses.toNat + par.largestPasses.toNat + 4) * (h + 1) ≤ (format α).exponentBias ∧
      (par.meanPasses.toNat + par.largestPasses.toNat) * (2 * h + 1) < (format α).exponentBias

variable [LawfulBinary α] {par : Params α} {p : Problem α} {h q : ℕ}

/-- The coefficients on which a run works are in the place of the given ones. -/
theorem Tempers.exists_replaces (hp : par.Tempers p h q) : ∃ φ : Entry α → Entry α,
    (par.scaled p).1.problem.matrix.entries.Perm (p.matrix.entries.map φ) ∧
      ∀ e ∈ p.matrix.entries, e.Replaces (par.logBound h) (φ e) := by
  have hidentity : ∃ φ : Entry α → Entry α, p.matrix.entries.Perm (p.matrix.entries.map φ) ∧
      ∀ e ∈ p.matrix.entries, e.Replaces (par.logBound h) (φ e) := by
    refine ⟨id, by rw [List.map_id], fun e he => ?_⟩
    obtain ⟨a, ha, hlog⟩ := hp.temperate.moderate e he
    rw [lg_eq ha] at hlog
    exact ⟨a, a, ha, ha, Iff.rfl, id, fun hne => hlog.resolve_left hne⟩
  rw [Params.scaled]
  split
  · rename_i hrescale
    obtain ⟨hleast, hone⟩ := hp.leastFactor hrescale
    obtain ⟨hroom, hproduct⟩ := hp.passes hrescale
    have hbound : (par.logBound h : ℝ) = 2 * h + 1 := by
      rw [logBound, if_pos hrescale]
      push_cast
      rfl
    change ∃ φ : Entry α → Entry α, (Scaled.balanced p par.meanPasses.toNat
      par.largestPasses.toNat par.leastFactor).problem.matrix.entries.Perm _ ∧ _
    generalize par.meanPasses.toNat = means at hroom hproduct ⊢
    generalize par.largestPasses.toNat = largests at hroom hproduct ⊢
    rw [Scaled.balanced]
    split
    · exact hidentity
    · refine ⟨fun e => e.withValue ((Factors.balancing p.matrix means largests
        par.leastFactor).scaledValue e), (p.matrix.reorder_perm .byColumn).map _, fun e he => ?_⟩
      rw [Entry.Replaces, hbound]
      obtain ⟨hpos, hlg⟩ := lg_nonpos hleast hone
      refine Factors.exists_scaledValue (by omega) ⟨Nat.cast_nonneg h, ?_⟩ ?_ hp.moderate hpos
        hlg he
      · rw [lgMax, sub_add_cancel]
        exact_mod_cast hroom
      · rw [lgMax, le_sub_iff_add_le]
        exact_mod_cast hproduct
  · exact hidentity

/-- A run works on a moderate matrix. It has a coefficient other than zero, and none that is
    negative, if this holds of the given one. -/
theorem Tempers.scaled (hp : par.Tempers p h q) :
    (par.scaled p).1.problem.matrix.Temperate (par.logBound h) q ∧
    ((∃ e ∈ p.matrix.entries, value e.value ≠ .real 0) →
      ∃ e ∈ (par.scaled p).1.problem.matrix.entries, value e.value ≠ .real 0) ∧
    ((∀ e ∈ p.matrix.entries, 0 ≤ e.value) →
      ∀ e ∈ (par.scaled p).1.problem.matrix.entries, AtLeast 0 e.value) := by
  obtain ⟨φ, hperm, hφ⟩ := hp.exists_replaces
  obtain ⟨hrows, hcols⟩ := par.shape_scaled p
  have hmem {f : Entry α} (hf : f ∈ (par.scaled p).1.problem.matrix.entries) :
      ∃ e ∈ p.matrix.entries, φ e = f := List.mem_map.1 (hperm.mem_iff.1 hf)
  refine ⟨⟨fun f hf => ?_, ?_, ?_, hp.temperate.digits, hp.temperate.range⟩, ?_, ?_⟩
  · obtain ⟨e, he, rfl⟩ := hmem hf
    obtain ⟨a, b, -, hb, -, -, hlog⟩ := hφ e he
    exact ⟨b, hb, or_iff_not_imp_left.2 fun hne => by rw [lg_eq hb]; exact hlog hne⟩
  · exact hrows.trans_le hp.temperate.rows_le
  · exact hcols.trans_le hp.temperate.cols_le
  · rintro ⟨e, he, hne⟩
    obtain ⟨a, b, ha, hb, hzero, -⟩ := hφ e he
    refine ⟨φ e, hperm.mem_iff.2 (List.mem_map_of_mem he), ?_⟩
    rw [ha] at hne
    rw [hb]
    exact fun h => hne (congrArg real (hzero.1 (real_injective h)))
  · intro hnonneg f hf
    obtain ⟨e, he, rfl⟩ := hmem hf
    obtain ⟨a, b, ha, hb, -, hsign, -⟩ := hφ e he
    have hle := hnonneg e he
    rw [le_iff, value_zero, ha, real_le_real] at hle
    exact ⟨b, hb, hsign hle⟩

end

/-! ### The step size -/

open SpectralNorm

variable [Binary α] [ConvertingBinary α] {par : Params α}

/-- The step size that is chosen is infinite if nothing is found out about the matrix. Otherwise
    it is positive, zero or no number, as the estimated norm is positive, infinite or no
    number. -/
theorem chooseStepSize_cases (hstep : par.stepSize = none) (A : SparseMatrix α) :
    let norm := (estimate A par.powerPasses.toNat par.powerTolerance).norm
    let t := (par.chooseStepSize A).1
    (value norm = .real 0 ∧ value t = .top) ∧
        Unmeasured A par.powerPasses.toNat par.powerTolerance ∨
      (IsPositive norm ∧ IsPositive t ∨ value norm = .top ∧ value t = .real 0 ∨
        IsUndefined norm ∧ IsUndefined t) ∧
        ¬ Unmeasured A par.powerPasses.toNat par.powerTolerance := by
  intro norm t
  have ht : t = Scalar.ofBinary64 stepSizeFactor / norm := by
    change (par.chooseStepSize A).1 = _
    rw [chooseStepSize, hstep]
  rw [ht]
  obtain ⟨c, hc, hle, hone⟩ := exists_value_stepSizeFactor (α := α)
  refine (norm_estimate_cases fun _ hpasses seed _ _ hfound =>
    isNorm_powerMethodFrom (.inl hpasses) hfound).imp (And.imp_left fun hzero => ?_)
    (And.imp_left fun hnorm => hnorm.div_cases hc hle hone)
  have hpos : 0 < c := (by positivity : (0 : ℝ) < 2 ^ (-1 : ℤ)).trans_le hle
  exact ⟨congrArg ofUnpacked hzero, value_div_zero hc hpos hzero⟩

/-- Without a given one, the step size that a run takes is a positive number exactly if the
    estimated norm is one. It is infinite if nothing is found out about the matrix, zero if the
    norm is infinite, and no number if that is none; nothing in the parameters rules this out.
    For problems that are moderate, and stay so when they are balanced, it is positive or
    infinite. It is usable for those of them that have a coefficient other than zero and none
    that is negative, as soon as a pass of the power method is made. -/
theorem stepSize_usable_iff (hstep : par.stepSize = none) (clock : ℕ → Float) (p : Problem α) :
    let A := (par.scaled p).1.problem.matrix
    let norm := (estimate A par.powerPasses.toNat par.powerTolerance).norm
    let t := (par.run clock p).stepSize
    (Scalar.isFinite t = true ∧ 0 < t ↔ Scalar.isFinite norm = true ∧ 0 < norm) ∧
    ((value norm = .real 0 ∧ value t = .top) ∧
        Unmeasured A par.powerPasses.toNat par.powerTolerance ∨
      (IsPositive norm ∧ IsPositive t ∨ value norm = .top ∧ value t = .real 0 ∨
        IsUndefined norm ∧ IsUndefined t) ∧
        ¬ Unmeasured A par.powerPasses.toNat par.powerTolerance) ∧
    ∀ h q, par.Tempers p h q → 0 < t ∧
      ((∃ e ∈ p.matrix.entries, value e.value ≠ .real 0) →
        (∀ e ∈ p.matrix.entries, 0 ≤ e.value) → par.powerPasses ≠ 0 →
          Scalar.isFinite t = true) := by
  intro A norm t
  have hcases := chooseStepSize_cases hstep A
  have hpositive : IsPositive t ↔ IsPositive norm := by
    rcases hcases with ⟨⟨hn, ht⟩, -⟩ | ⟨⟨hn, ht⟩ | ⟨hn, ht⟩ | ⟨hn, ht⟩, -⟩
    · exact iff_of_false (fun h => h.value_ne_top ht) (fun h => h.value_ne_zero hn)
    · exact iff_of_true ht hn
    · exact iff_of_false (fun h => h.value_ne_zero ht) (fun h => h.value_ne_top hn)
    · exact iff_of_false (fun h => h.value_ne_undefined ht) (fun h => h.value_ne_undefined hn)
  refine ⟨by rw [isFinite_and_pos_iff, isFinite_and_pos_iff, hpositive], hcases,
    fun h q hp => ?_⟩
  obtain ⟨hA, hne, hnonneg⟩ := hp.scaled
  by_cases hmeasured : Unmeasured A par.powerPasses.toNat par.powerTolerance
  · have htop : value t = .top := (hcases.resolve_right fun h => h.2 hmeasured).1.2
    refine ⟨pos_iff.2 (.inr htop), fun hentry hnonneg' hpasses => absurd hmeasured ?_⟩
    refine not_unmeasured hA (hnonneg hnonneg') (hne hentry) fun h0 => hpasses ?_
    exact UInt64.toNat_inj.1 h0
  · have ht := hpositive.2 (isPositive_norm_estimate hA hmeasured)
    exact ⟨ht.pos, fun _ _ _ => (isFinite_and_pos_iff.2 ht).1⟩

end Params

/-! ### A step size that is usable -/

namespace Params

/-- The default parameters leave uneven coefficients moderate. -/
theorem tempers_triangle {α : Type} [Scalar α] [Binary α] [LawfulBinary α]
    (hleast : (0 : α) < Scalar.tenth 12 ∧ (Scalar.tenth 12 : α) ≤ 1) {a b : α} {k : ℕ}
    (ha : value a = .real (2 ^ (k : ℤ))) (hb : value b = .real (2 ^ (-k : ℤ)))
    (hroom : 18 * (k + 1) ≤ (format α).exponentBias)
    (hproduct : 14 * (2 * k + 1) < (format α).exponentBias) :
    (default : Params α).Tempers (.cone (.triangle a b)) k 1 := by
  have hmoderate := SparseMatrix.moderate_triangle ha hb
  have hdigits := le_mantissaBits (α := α)
  have hbound : (default : Params α).logBound k = 2 * k + 1 := rfl
  refine ⟨hmoderate, ⟨hmoderate.mono ?_, le_rfl, le_rfl, by omega, ?_⟩, fun _ => hleast,
    fun _ => ⟨hroom, hproduct⟩⟩
  · rw [hbound, Nat.cast_le]
    omega
  · rw [hbound]
    omega

/-- With the default parameters, uneven coefficients get a usable step size. -/
theorem stepSize_usable_triangle :
    let p : Problem Float := .cone (.triangle 1048576 (1 / 1048576))
    let q : Problem Float32 := .cone (.triangle 16 (1 / 16))
    ((default : Params Float).stepSize = none ∧
      Scalar.isFinite ((default : Params Float).run (fun _ => 0) p).stepSize = true ∧
      0 < ((default : Params Float).run (fun _ => 0) p).stepSize) ∧
    (default : Params Float32).stepSize = none ∧
      Scalar.isFinite ((default : Params Float32).run (fun _ => 0) q).stepSize = true ∧
      0 < ((default : Params Float32).run (fun _ => 0) q).stepSize := by
  intro p q
  have hleast : (0 : Float) < Scalar.tenth 12 ∧ (Scalar.tenth 12 : Float) ≤ 1 := by decide +kernel
  have hleast' : (0 : Float32) < Scalar.tenth 12 ∧ (Scalar.tenth 12 : Float32) ≤ 1 := by
    decide +kernel
  have hstep : (default : Params Float).stepSize = none := rfl
  have hstep' : (default : Params Float32).stepSize = none := rfl
  obtain ⟨ha, hb⟩ := value_two_pow_twenty
  obtain ⟨ha', hb'⟩ := value_two_pow_four
  obtain ⟨hpos, hfinite⟩ := (stepSize_usable_iff hstep (fun _ => 0) p).2.2 20 1
    (tempers_triangle hleast ha hb (by decide) (by decide))
  obtain ⟨hpos', hfinite'⟩ := (stepSize_usable_iff hstep' (fun _ => 0) q).2.2 4 1
    (tempers_triangle hleast' ha' hb' (by decide) (by decide))
  refine ⟨⟨hstep, ?_, hpos⟩, hstep', ?_, hpos'⟩
  · exact hfinite ⟨_, SparseMatrix.one_mem_triangle _ _, isPositive_one.value_ne_zero⟩
      (fun e he => (SparseMatrix.isPositive_triangle ha hb e he).nonneg) (by decide)
  · exact hfinite' ⟨_, SparseMatrix.one_mem_triangle _ _, isPositive_one.value_ne_zero⟩
      (fun e he => (SparseMatrix.isPositive_triangle ha' hb' e he).nonneg) (by decide)

end Params

/-! ### Steps that are zero or infinite -/

namespace Params

/-- The parameters of a run without balancing. -/
def unscaled (α : Type) [Scalar α] : Params α := { (default : Params α) with rescale := false }

/-- A problem with finite coefficients, one of them positive, and parameters without a step size,
    both of which are accepted. -/
structure Chooses {α : Type} [Scalar α] (par : Params α) (p : Problem α) : Prop where
  accepted : p.Accepted
  checked : par.error? p.rows p.cols = none
  stepSize_eq : par.stepSize = none
  isFinite : ∀ e ∈ p.matrix.entries, Scalar.isFinite e.value = true
  exists_pos : ∃ e ∈ p.matrix.entries, 0 < e.value

/-- In both arithmetics, the only coefficient of an equation may be so large that its powers
    overflow, which gives a step size of zero, or so small that they vanish, which gives an
    infinite one. -/
theorem exists_stepSize_unusable :
    ((∃ (par : Params Float) (p : Problem Float), par.Chooses p ∧
        (par.run (fun _ => 0) p).stepSize = 0) ∧
      ∃ (par : Params Float) (p : Problem Float), par.Chooses p ∧
        (par.run (fun _ => 0) p).stepSize = Scalar.infinity) ∧
    (∃ (par : Params Float32) (p : Problem Float32), par.Chooses p ∧
        (par.run (fun _ => 0) p).stepSize = 0) ∧
      ∃ (par : Params Float32) (p : Problem Float32), par.Chooses p ∧
        (par.run (fun _ => 0) p).stepSize = Scalar.infinity := by
  have hlarge : (unscaled Float).Chooses (.equation 1e200 1e200) :=
    ⟨Problem.accepted_iff_emptyBounds?.2 (by decide +kernel), by decide +kernel, rfl,
      by decide +kernel, by decide +kernel⟩
  have hsmall : (unscaled Float).Chooses (.equation 1e-200 1e-200) :=
    ⟨Problem.accepted_iff_emptyBounds?.2 (by decide +kernel), by decide +kernel, rfl,
      by decide +kernel, by decide +kernel⟩
  have hlarge' : (unscaled Float32).Chooses (.equation 1e30 1e30) :=
    ⟨Problem.accepted_iff_emptyBounds?.2 (by decide +kernel), by decide +kernel, rfl,
      by decide +kernel, by decide +kernel⟩
  have hsmall' : (unscaled Float32).Chooses (.equation 1e-30 1e-30) :=
    ⟨Problem.accepted_iff_emptyBounds?.2 (by decide +kernel), by decide +kernel, rfl,
      by decide +kernel, by decide +kernel⟩
  exact ⟨⟨⟨_, _, hlarge, by decide +kernel⟩, _, _, hsmall, by decide +kernel⟩,
    ⟨_, _, hlarge', by decide +kernel⟩, _, _, hsmall', by decide +kernel⟩

end Params

end HybridGradient
