import HybridGradient.Proofs.Bounds
import HybridGradient.Proofs.FactorRange
import HybridGradient.Proofs.ModerateMatrix

/-!
# Balanced problems in binary arithmetic

A scaled problem is made without a check, because its bounds are those of an accepted problem
times the factors of the variables. Multiplication by a positive number keeps the order of the
bounds also where it rounds, so the scaled problem would be accepted as long as all factors are
positive and finite. A factor that has become zero makes an infinite bound no number.

* `Scaled.accepted_ofFactors`: positive finite factors leave an accepted problem;
* `Scaled.balanced_usable`: what holds of the factors after any number of passes, and when they
  are positive and finite;
* `Scaled.exists_not_usable`: problems that the passes of a run take to a factor that is zero or
  infinite.
-/

namespace HybridGradient

open Extended Float.Model Rounding Binary

namespace Scaled

/-- Whether a scalar is the factor of a variable or of a constraint. -/
def IsFactor {α : Type} (s : Scaled α) (d : α) : Prop :=
  d ∈ s.variableFactors ∨ d ∈ s.constraintFactors

variable {α : Type} [Scalar α]

/-- The factors of a balanced problem are products over its passes. -/
theorem IsFactor.product {p : Problem α} {means largests : ℕ} {least d : α}
    (h : (balanced p means largests least).IsFactor d) :
    Factors.Product least (means + largests) d := by
  rw [balanced] at h
  split at h
  · rename_i hzero
    rw [hzero.1, hzero.2]
    rcases h with h | h
    · exact Array.eq_of_mem_replicate h ▸ .one
    · exact Array.eq_of_mem_replicate h ▸ .one
  · have hproducts := Factors.products_balancing p.matrix means largests least
    exact h.elim (hproducts.cols d) (hproducts.rows d)

theorem getElem_image {d x : Vec α} {i : ℕ} (hi : i < (image d x).size) (hd : i < d.size)
    (hx : i < x.size) : (image d x)[i] = 1 * d[i] * x[i] + 0 * 0 := by
  simp only [image, Vec.addDiagonal, Vec.zeros, Array.getElem_zipWith, Array.getElem_replicate]

variable [Binary α] [LawfulBinary α] {p : Problem α}

/-- Scaling by a positive number keeps the order of two bounds. -/
theorem image_le_image {d x y : α} {a : ℝ} (hd : value d = .real a) (ha : 0 < a) (h : x ≤ y) :
    1 * d * x + 0 * 0 ≤ 1 * d * y + 0 * 0 := by
  have hzero : unpack (0 * 0 : α) = .zero (.positive * .positive) := by
    rw [LawfulBinary.unpack_mul, LawfulBinary.unpack_zero]
    exact stored_zero _
  rw [le_iff, value_add_zero hzero, value_add_zero hzero, ← le_iff]
  exact mul_le_mul_of_pos (value_one_mul hd) ha h

/-- Positive finite factors leave an accepted problem. -/
theorem accepted_ofFactors (hp : p.Accepted) {f : Factors α} (hr : f.rows.size = p.matrix.rows)
    (hc : f.cols.size = p.matrix.cols)
    (hf : ∀ d ∈ f.cols, Scalar.isFinite d = true ∧ 0 < d) :
    (ofFactors p f hr hc).problem.Accepted := by
  rw [Problem.accepted_iff_emptyBounds?, Problem.emptyBounds?_eq_none_iff] at hp ⊢
  change ∀ b ∈ Array.zip (image f.cols p.lower) (image f.cols p.upper), b.1 ≤ b.2
  intro b hb
  obtain ⟨j, hj, rfl⟩ := Array.mem_iff_getElem.1 hb
  have hsize := hj
  rw [Array.size_zip, size_image, size_image] at hsize
  obtain ⟨a, ha, hpos⟩ := isFinite_and_pos_iff.1
    (hf f.cols[j] (Array.getElem_mem (by omega)))
  have hle := hp _ (Array.getElem_mem (by rw [Array.size_zip]; omega) (i := j))
  rw [Array.getElem_zip] at hle ⊢
  rw [getElem_image _ (by omega) (by omega), getElem_image _ (by omega) (by omega)]
  exact image_le_image ha hpos hle

/-- A scaled problem is accepted as long as its factors of variables are positive and
    finite. -/
theorem accepted_balanced (hp : p.Accepted) {means largests : ℕ} {least : α}
    (hf : ∀ d ∈ (balanced p means largests least).variableFactors,
      Scalar.isFinite d = true ∧ 0 < d) :
    (balanced p means largests least).problem.Accepted := by
  rw [balanced] at hf ⊢
  split
  · exact hp
  · rename_i hpasses
    rw [if_neg hpasses] at hf
    exact accepted_ofFactors hp _ _ hf

/-- A scaled problem with factors that are positive and finite, and which would be accepted. -/
def Usable (s : Scaled α) : Prop :=
  (∀ d, s.IsFactor d → Scalar.isFinite d = true ∧ 0 < d) ∧ s.problem.Accepted

theorem usable_balanced (hp : p.Accepted) {means largests : ℕ} {least : α}
    (hf : ∀ d, (balanced p means largests least).IsFactor d → IsPositive d) :
    (balanced p means largests least).Usable :=
  ⟨fun d hd => isFinite_and_pos_iff.2 (hf d hd),
    accepted_balanced hp fun d hd => isFinite_and_pos_iff.2 (hf d (.inl hd))⟩

/-- The factors for a moderate matrix are positive numbers. -/
theorem IsFactor.isPositive {means largests : ℕ} {h : ℝ}
    (hr : Factors.Room α (means + largests) h) (hA : p.matrix.Moderate h) {least : α}
    (hleast : IsPositive least) (hone : lg least ≤ 0) {d : α}
    (hd : (balanced p means largests least).IsFactor d) : IsPositive d := by
  have hpositive := Factors.isPositive_balancing hr hA hleast hone
  rw [balanced] at hd
  split at hd
  · rcases hd with hd | hd
    · exact Array.eq_of_mem_replicate hd ▸ isPositive_one
    · exact Array.eq_of_mem_replicate hd ▸ isPositive_one
  · exact hd.elim (hpositive.2 d) (hpositive.1 d)

/-- The factors of an accepted problem are never negative, and are numbers or infinite.

    The scaled problem is usable after up to two passes, and also after more passes if the
    coefficients are moderate for so many of them. As long as the least factor allowed, to the
    power of the number of passes, can be stored, no factor is zero. Where the factors of the
    variables are positive and finite, the scaled problem is accepted. -/
theorem balanced_usable (hp : p.Accepted) {least : α} (hpos : 0 < least) (hone : least ≤ 1)
    (means largests : ℕ) :
    let s := balanced p means largests least
    (∀ d, s.IsFactor d → 0 ≤ d) ∧
      (means + largests ≤ 2 → s.Usable) ∧
      (∀ h : ℝ, 0 ≤ h → p.matrix.Moderate h →
        (means + largests + 4) * (h + 1) ≤ (format α).exponentBias → s.Usable) ∧
      (∀ n : ℕ, .real (2 ^ (-n : ℤ)) ≤ value least →
        (format α).minExponent ≤ -(n * (means + largests) : ℕ) → ∀ d, s.IsFactor d → 0 < d) ∧
      ((∀ d ∈ s.variableFactors, Scalar.isFinite d = true ∧ 0 < d) → s.problem.Accepted) := by
  intro s
  obtain ⟨l, hl⟩ : ∃ l, value least = .real l := by
    rw [le_iff, value_one] at hone
    rcases pos_iff.1 hpos with ⟨l, hl, -⟩ | htop
    · exact ⟨l, hl⟩
    · rw [htop] at hone
      exact absurd hone (not_top_le_real 1)
  rw [lt_iff, value_zero, hl, real_lt_real] at hpos
  rw [le_iff, value_one, hl, real_le_real] at hone
  refine ⟨fun d hd => hd.product.nonneg hl hpos hone, fun htwo => ?_, fun h h0 hA hle => ?_,
    fun n hn hk d hd => ?_, accepted_balanced hp⟩
  · exact usable_balanced hp fun d hd => hd.product.isPositive hl hpos hone htwo
  · have hroom : Factors.Room α (means + largests) h :=
      ⟨h0, by rw [lgMax, sub_add_cancel]; exact_mod_cast hle⟩
    have hlg : lg least ≤ 0 := by
      rw [lg_eq hl]
      exact Real.logb_nonpos one_lt_two hpos.le hone
    exact usable_balanced hp fun d hd => hd.isPositive hroom hA ⟨l, hl, hpos⟩ hlg
  · rw [hl, real_le_real] at hn
    rw [lt_iff, value_zero]
    exact lt_of_lt_of_le (by positivity) (hd.product.two_pow_le hl hpos hone hn hk)

end Scaled

/-! ### Moderate problems -/

/-- The program of the points `x ≥ 0` with `A x ≥ 0`, all of which cost nothing. -/
def Problem.cone {α : Type} [Scalar α] (A : SparseMatrix α) : Problem α where
  objective := Vec.zeros A.cols
  matrix := A
  rightSide := Vec.zeros A.rows
  equalities := 0
  lower := Vec.zeros A.cols
  upper := Array.replicate A.cols Scalar.infinity
  size_objective := Vec.size_zeros _
  size_rightSide := Vec.size_zeros _
  size_lower := Vec.size_zeros _
  size_upper := Array.size_replicate
  equalities_le := Nat.zero_le _

namespace SparseMatrix

variable {α : Type} [Scalar α]

/-- Two coefficients in a row above zero and one. -/
def triangle (a b : α) : SparseMatrix α :=
  .ofEntries 2 2 .byColumn [⟨0, 0, a⟩, ⟨0, 1, b⟩, ⟨1, 1, 1⟩] (by simp)

theorem entries_triangle (a b : α) :
    (triangle a b).entries = [⟨0, 0, a⟩, ⟨0, 1, b⟩, ⟨1, 1, 1⟩] := rfl

theorem one_mem_triangle (a b : α) : ⟨1, 1, 1⟩ ∈ (triangle a b).entries := by
  simp [entries_triangle]

variable [Binary α] [LawfulBinary α] {a b : α} {k : ℕ} (ha : value a = .real (2 ^ (k : ℤ)))
  (hb : value b = .real (2 ^ (-k : ℤ)))

include ha hb

/-- The coefficients may be as far apart as a power of two and its reciprocal. -/
theorem moderate_triangle : (triangle a b).Moderate k := by
  intro e he
  rw [entries_triangle] at he
  fin_cases he
  · exact ⟨_, ha, .inr (by rw [lg_eq ha, logb_two_zpow]; simp)⟩
  · exact ⟨_, hb, .inr (by rw [lg_eq hb, logb_two_zpow]; simp)⟩
  · exact ⟨_, value_one, .inr (by simp [lg_one])⟩

theorem isPositive_triangle : ∀ e ∈ (triangle a b).entries, IsPositive e.value := by
  intro e he
  rw [entries_triangle] at he
  fin_cases he
  · exact ⟨_, ha, by positivity⟩
  · exact ⟨_, hb, by positivity⟩
  · exact isPositive_one

end SparseMatrix

theorem Binary.value_two_pow_twenty : value (1048576 : Float) = .real (2 ^ (20 : ℤ)) ∧
    value (1 / 1048576 : Float) = .real (2 ^ (-20 : ℤ)) := by
  have hlarge : unpack (1048576 : Float) = .finite .positive (2 ^ 52) (-32) (by decide) := rfl
  have hsmall : unpack (1 / 1048576 : Float) = .finite .positive (2 ^ 52) (-72) (by decide) := rfl
  rw [value, hlarge, ofUnpacked_finite, value, hsmall, ofUnpacked_finite]
  norm_num [unit]

theorem Binary.value_two_pow_four : value (16 : Float32) = .real (2 ^ (4 : ℤ)) ∧
    value (1 / 16 : Float32) = .real (2 ^ (-4 : ℤ)) := by
  have hlarge : unpack (16 : Float32) = .finite .positive (2 ^ 23) (-19) (by decide) := rfl
  have hsmall : unpack (1 / 16 : Float32) = .finite .positive (2 ^ 23) (-27) (by decide) := rfl
  rw [value, hlarge, ofUnpacked_finite, value, hsmall, ofUnpacked_finite]
  norm_num [unit]

/-- Uneven coefficients, balanced by as many passes as a run makes that is told nothing. -/
theorem Scaled.balanced_usable_triangle :
    let p : Problem Float := .cone (.triangle 1048576 (1 / 1048576))
    let q : Problem Float32 := .cone (.triangle 16 (1 / 16))
    (p.Accepted ∧ (0 : Float) < Scalar.tenth 12 ∧ Scalar.tenth 12 ≤ (1 : Float) ∧
      (balanced p 10 4 (Scalar.tenth 12)).Usable) ∧
    q.Accepted ∧ (0 : Float32) < Scalar.tenth 12 ∧ Scalar.tenth 12 ≤ (1 : Float32) ∧
      (balanced q 10 4 (Scalar.tenth 12)).Usable := by
  intro p q
  have hp : p.Accepted := Problem.accepted_iff_emptyBounds?.2 (by decide +kernel)
  have hq : q.Accepted := Problem.accepted_iff_emptyBounds?.2 (by decide +kernel)
  have hpos : (0 : Float) < Scalar.tenth 12 := by decide +kernel
  have hpos' : (0 : Float32) < Scalar.tenth 12 := by decide +kernel
  have hone : Scalar.tenth 12 ≤ (1 : Float) := by decide +kernel
  have hone' : Scalar.tenth 12 ≤ (1 : Float32) := by decide +kernel
  have hbias : (format Float).exponentBias = 1023 := rfl
  have hbias' : (format Float32).exponentBias = 127 := rfl
  obtain ⟨ha, hb⟩ := value_two_pow_twenty
  obtain ⟨ha', hb'⟩ := value_two_pow_four
  refine ⟨⟨hp, hpos, hone, ?_⟩, hq, hpos', hone', ?_⟩
  · exact (balanced_usable hp hpos hone 10 4).2.2.1 (20 : ℕ) (Nat.cast_nonneg _)
      (SparseMatrix.moderate_triangle ha hb) (by rw [hbias]; norm_num)
  · exact (balanced_usable hq hpos' hone' 10 4).2.2.1 (4 : ℕ) (Nat.cast_nonneg _)
      (SparseMatrix.moderate_triangle ha' hb') (by rw [hbias']; norm_num)

/-! ### Factors that are zero or infinite -/

/-- The coefficients `2 ^ 126` and `2 ^ -126` in a row. -/
def SparseMatrix.unevenRow : SparseMatrix Float32 :=
  .ofEntries 1 2 .byColumn [⟨0, 0, Float32.ofBits 0x7E800000⟩, ⟨0, 1, Float32.ofBits 0x00800000⟩]
    (by simp)

/-- The coefficients `2 ^ -900` and `2 ^ 1000` in a row above `0` and `2 ^ 300`. -/
def SparseMatrix.unevenSquare : SparseMatrix Float :=
  .ofEntries 2 2 .byColumn [⟨0, 0, Float.ofBits 0x07B0000000000000⟩,
    ⟨0, 1, Float.ofBits 0x7E70000000000000⟩, ⟨1, 1, Float.ofBits 0x52B0000000000000⟩] (by simp)

theorem Scaled.exists_isFactor {α : Type} {s : Scaled α} {f : α → Bool}
    (h : s.variableFactors.all f = false) : ∃ d, s.IsFactor d ∧ ¬ f d = true := by
  obtain ⟨d, hd, hne⟩ := Array.all_eq_false'.1 h
  exact ⟨d, .inl hd, hne⟩

/-- With the least factor of a run that is told nothing, four passes in binary32 take a factor
    to zero, and the passes of such a run take one in binary64 to infinity. The scaled problems
    would not be accepted. -/
theorem Scaled.exists_not_usable :
    ((0 : Float32) < Scalar.tenth 12 ∧ Scalar.tenth 12 ≤ (1 : Float32) ∧
      ∃ p : Problem Float32, p.Accepted ∧
        (∃ d, (balanced p 0 4 (Scalar.tenth 12)).IsFactor d ∧ ¬ 0 < d) ∧
        ¬ (balanced p 0 4 (Scalar.tenth 12)).problem.Accepted) ∧
    (0 : Float) < Scalar.tenth 12 ∧ Scalar.tenth 12 ≤ (1 : Float) ∧
      ∃ p : Problem Float, p.Accepted ∧
        (∃ d, (balanced p 10 4 (Scalar.tenth 12)).IsFactor d ∧ ¬ Scalar.isFinite d = true) ∧
        ¬ (balanced p 10 4 (Scalar.tenth 12)).problem.Accepted := by
  refine ⟨⟨by decide +kernel, by decide +kernel, .cone .unevenRow, ?_, ?_, fun h => ?_⟩,
    by decide +kernel, by decide +kernel, .cone .unevenSquare, ?_, ?_, fun h => ?_⟩
  · exact Problem.accepted_iff_emptyBounds?.2 (by decide +kernel)
  · obtain ⟨d, hd, hzero⟩ := exists_isFactor (f := fun d => decide (0 < d))
      (by decide +kernel : (balanced (.cone .unevenRow) 0 4
        (Scalar.tenth 12)).variableFactors.all (fun d => decide (0 < d)) = false)
    exact ⟨d, hd, fun hpos => hzero (decide_eq_true hpos)⟩
  · exact absurd (Problem.accepted_iff_emptyBounds?.1 h) (by decide +kernel)
  · exact Problem.accepted_iff_emptyBounds?.2 (by decide +kernel)
  · exact exists_isFactor (by decide +kernel : (balanced (.cone .unevenSquare) 10 4
      (Scalar.tenth 12)).variableFactors.all Scalar.isFinite = false)
  · exact absurd (Problem.accepted_iff_emptyBounds?.1 h) (by decide +kernel)

end HybridGradient
