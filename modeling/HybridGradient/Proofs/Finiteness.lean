import HybridGradient.Proofs.Bounds
import HybridGradient.Proofs.FactorRange
import HybridGradient.Proofs.Propagation

/-!
# The components of an optimal solution

An iterate that is found to be optimal under a finite tolerance consists of numbers, since its
error is one. The solution is this iterate with each component divided by its factor,
and the error does not see these quotients, as products are taken with the scaled matrix. A
quotient is always a number or infinite, and infinite only if the exact one is too large for the
format. This does happen: an infinite point is found to be optimal where a small coefficient
meets a large right-hand side, and not where the problem is solved as it is.

* `Binary.Overflows`: a quotient that is too large for the format;
* `Scaled.Mapped`: how an iterate of numbers is mapped back;
* `solve?_optimal_mapped`: the components of an optimal solution, and when they are finite;
* `exists_optimal_infinite`: an optimal solution that is infinite.
-/

namespace HybridGradient

open Extended Binary Rounding Float.Model

/-- Up to the greatest number of a format, rounding leaves a real number. -/
theorem Rounding.Rounds.exists_real_of_abs_le {F : Format} (hF : 2 ≤ F.exponentBits) {x : ℝ}
    {v : Extended} (h : Rounds F x v) (hx : |x| ≤ greatest F) : ∃ r, v = .real r := by
  obtain ⟨hge, hle⟩ := abs_le.1 hx
  have hrepresentable := representable_greatest hF
  have hlt := greatest_lt_overflow hF
  cases h with
  | real h hr => exact ⟨_, rfl⟩
  | top h hr => exact absurd ((h.ge hrepresentable hle).trans_lt hlt) (not_lt.2 hr)
  | bot h hr => exact absurd (h.le hrepresentable.neg hge) (by linarith)

/-! ### Quotients -/

namespace Rounding

variable {F : Format} {u v : UnpackedFloat}

theorem isFinite_div_eq_false (hv : v = .notANumber ∨ ∃ s, v = .zero s) :
    (UnpackedFloat.div F u v).isFinite = false := by
  rcases hv with rfl | ⟨s', rfl⟩
  · rcases u with s | _ | s | ⟨s, m, e, hm⟩ <;> rfl
  · rcases u with s | _ | s | ⟨s, m, e, hm⟩ <;> rfl

end Rounding

namespace Binary

variable {α : Type} [Binary α]

/-- A scalar by which something can be divided: a number other than zero, or an infinity. -/
def IsDivisor (d : α) : Prop := ¬ IsUndefined d ∧ value d ≠ .real 0

/-- The quotient of two numbers is too large for the format. -/
def Overflows (x d : α) : Prop :=
  ∃ a b, value x = .real a ∧ value d = .real b ∧ b ≠ 0 ∧ greatest (format α) < |a / b|

variable [Scalar α]

section

variable [LawfulBinary α] {x d : α}

theorem isDivisor_one : IsDivisor (1 : α) := by
  rw [IsDivisor, IsUndefined, value_one]
  exact ⟨by simp, fun h => one_ne_zero (Extended.real_injective h)⟩

/-- Only what can be divided by leaves a finite quotient. -/
theorem isDivisor_of_isFinite_div (h : Scalar.isFinite (x / d) = true) : IsDivisor d := by
  rw [LawfulBinary.isFinite_eq, LawfulBinary.unpack_div] at h
  have hcases (hd : unpack d = .notANumber ∨ ∃ s, unpack d = .zero s) : False :=
    Bool.false_ne_true ((isFinite_stored (isFinite_div_eq_false hd)).symm.trans h)
  exact ⟨fun hd => hcases (.inl (isUndefined_iff.1 hd)),
    fun hd => hcases (.inr (exists_unpack_zero hd))⟩

/-- A number by an infinity is zero. -/
theorem value_div_infinite {a : ℝ} (hx : value x = .real a)
    (hd : value d = .top ∨ value d = .bot) : value (x / d) = .real 0 := by
  have hinf : ∃ s, unpack d = .infinity s := hd.elim (fun h => ⟨_, unpack_of_top h⟩)
    (fun h => ⟨_, unpack_of_bot h⟩)
  obtain ⟨s, hd⟩ := hinf
  rw [value, LawfulBinary.unpack_div, hd]
  obtain ⟨s', m, e, -, hx, -⟩ := exists_unpack_eq hx
  rw [hx, signed]
  split
  · exact congrArg ofUnpacked (stored_zero _)
  · exact congrArg ofUnpacked (stored_zero _)

/-- The quotient of a number is a number or infinite, and infinite only if the exact one is
    too large. -/
theorem not_undefined_div (hx : Scalar.isFinite x = true) (hd : IsDivisor d) :
    ¬ IsUndefined (x / d) ∧ (Scalar.isFinite (x / d) = false → Overflows x d) := by
  obtain ⟨a, ha⟩ := isFinite_iff.1 hx
  have hreal {r : ℝ} (h : value (x / d) = .real r) :
      ¬ IsUndefined (x / d) ∧ (Scalar.isFinite (x / d) = false → Overflows x d) := by
    refine ⟨fun h' => (nomatch h.symm.trans h'), fun hfinite => ?_⟩
    exact absurd (isFinite_iff.2 ⟨_, h⟩) (by rw [hfinite]; exact Bool.false_ne_true)
  cases h : value d with
  | real b =>
    have hb : b ≠ 0 := fun h0 => hd.2 (h0 ▸ h)
    have hrounds := rounds_div ha h hb
    by_cases hle : |a / b| ≤ greatest (format α)
    · obtain ⟨r, hr⟩ := hrounds.exists_real_of_abs_le two_le_exponentBits hle
      exact hreal hr
    · refine ⟨fun hundefined => ?_, fun _ => ⟨a, b, ha, h, hb, not_le.1 hle⟩⟩
      rw [show value _ = .undefined from hundefined] at hrounds
      exact nomatch hrounds
  | top => exact hreal (value_div_infinite ha (.inl h))
  | bot => exact hreal (value_div_infinite ha (.inr h))
  | undefined => exact absurd h hd.1

/-- Only a divisor less than one in magnitude leaves a quotient that is too large. -/
theorem Overflows.not_one_le_abs (h : Overflows x d) : ¬ 1 ≤ Scalar.abs d := by
  obtain ⟨a, b, ha, hb, hne, hlt⟩ := h
  obtain ⟨hrepresentable, hoverflow⟩ := representable ha
  rw [Binary.le_iff, value_one, value_abs, hb]
  intro hle
  have hone : 1 ≤ |b| := real_le_real.1 hle
  have habs : Representable (format α) |a| := by rwa [Representable, abs_abs]
  have hquotient : |a / b| ≤ greatest (format α) := by
    rw [abs_div]
    exact (div_le_self (abs_nonneg a) hone).trans
      (le_greatest two_le_exponentBits habs (abs_nonneg a) hoverflow)
  exact absurd hquotient (not_le.2 hlt)

end

/-! ### Differences with an infinity -/

variable [SignedBinary α] {x y : α} {a : ℝ}

theorem value_sub_bot (hx : value x = .real a) (hy : value y = .bot) :
    value (x - y) = .top := by
  rw [value, SignedBinary.unpack_sub, unpack_of_bot hy]
  obtain ⟨s', m, e, -, hx, -⟩ := exists_unpack_eq hx
  rw [hx, signed]
  split
  · exact congrArg ofUnpacked (stored_infinity _)
  · exact congrArg ofUnpacked (stored_infinity _)

theorem value_top_sub (hx : value x = .top) (hy : value y = .real a) :
    value (x - y) = .top := by
  rw [value, SignedBinary.unpack_sub, unpack_of_top hx]
  obtain ⟨s', m, e, -, hy, -⟩ := exists_unpack_eq hy
  rw [hy, signed]
  split
  · exact congrArg ofUnpacked (stored_infinity _)
  · exact congrArg ofUnpacked (stored_infinity _)

theorem value_neg_bot (hx : value x = .bot) : value (-x) = .top := by
  rw [value, SignedBinary.unpack_neg, unpack_of_bot hx]
  exact congrArg ofUnpacked (stored_infinity _)

theorem isFinite_positivePart_top (hx : value x = .top) :
    Scalar.isFinite (Scalar.positivePart x) = false := by
  rw [Scalar.positivePart, if_neg, isFinite_eq_false_iff]
  · exact .inl hx
  · rw [Binary.lt_iff, hx, value_zero]
    exact id

end Binary

/-! ### Divisors -/

namespace Scaled

variable {α : Type} [Scalar α] [Binary α]

/-- A finite cost, and a finite right-hand side, has a factor that can be divided by. -/
structure Divides (s : Scaled α) : Prop where
  variableFactors : ∀ j, Vec.At (fun x => Scalar.isFinite x = true) s.problem.objective j →
    ∀ d, s.variableFactors[j]? = some d → IsDivisor d
  constraintFactors : ∀ i, Vec.At (fun x => Scalar.isFinite x = true) s.problem.rightSide i →
    ∀ d, s.constraintFactors[i]? = some d → IsDivisor d

theorem isDivisor_of_ones [LawfulBinary α] {n j : ℕ} {d : α}
    (hd : (Vec.ones n : Vec α)[j]? = some d) : IsDivisor d := by
  rw [Array.eq_of_mem_replicate (Array.mem_of_getElem? hd)]
  exact isDivisor_one

theorem isDivisor_of_divide [LawfulBinary α] {factors x : Vec α} {j : ℕ} {d : α}
    (h : Vec.At (fun x => Scalar.isFinite x = true) (Vec.divide factors x) j)
    (hd : factors[j]? = some d) : IsDivisor d := by
  obtain ⟨hj, hfinite⟩ := h
  obtain ⟨hj', rfl⟩ := Array.getElem?_eq_some_iff.1 hd
  simp only [Vec.divide, Array.getElem_zipWith] at hfinite
  exact isDivisor_of_isFinite_div hfinite

theorem divides_scaled [LawfulBinary α] (par : Params α) (p : Problem α) :
    (par.scaled p).1.Divides := by
  have hidentity : (identity p).Divides :=
    ⟨fun _ _ _ => isDivisor_of_ones, fun _ _ _ => isDivisor_of_ones⟩
  rw [Params.scaled]
  split
  · change (balanced p _ _ _).Divides
    rw [balanced]
    split
    · exact hidentity
    · exact ⟨fun _ h _ => isDivisor_of_divide h, fun _ h _ => isDivisor_of_divide h⟩
  · exact hidentity

/-! ### Violations that are infinite -/

variable [SignedBinary α] {s : Scaled α} {z move : Iterate α} {iteration : ℕ}
  {passes elapsed : Float} {j : ℕ}

theorem isFinite_boundViolation {bounds : α × α} {x : α}
    (h : Scalar.isFinite bounds.1 = true ∧ value x = .bot ∨
      Scalar.isFinite bounds.2 = true ∧ value x = .top) :
    Scalar.isFinite (boundViolation bounds x) = false := by
  have hbad := absorbing_not_finite (α := α)
  rw [boundViolation]
  rcases h with ⟨hl, hx⟩ | ⟨hu, hx⟩
  · obtain ⟨a, ha⟩ := isFinite_iff.1 hl
    have hbelow : Scalar.isFinite (0 + Scalar.positivePart (bounds.1 - x)) = false :=
      hbad.add (.inr (isFinite_positivePart_top (value_sub_bot ha hx)))
    rw [if_pos hl]
    split
    · exact hbad.add (.inl hbelow)
    · exact hbelow
  · obtain ⟨a, ha⟩ := isFinite_iff.1 hu
    rw [if_pos hu]
    exact hbad.add (.inr (isFinite_positivePart_top (value_top_sub hx ha)))

/-- A violation of a bound that is not finite leaves no finite error. -/
theorem isFinite_error_of_boundViolations
    (h : Vec.At (fun x => Scalar.isFinite x = false) (s.boundViolations z.primal) j) :
    Scalar.isFinite (s.evaluate z move iteration passes elapsed).error = false :=
  absorbing_not_finite.error_of_part
    (.inl (SignedBinary.isFinite_hypot _ _ (.inr (absorbing_not_finite.norm h))))

/-- A violation of a sign that is not finite leaves no finite error. -/
theorem isFinite_error_of_signViolations
    (h : Vec.At (fun x => Scalar.isFinite x = false) (s.signViolations z.dual) j) :
    Scalar.isFinite (s.evaluate z move iteration passes elapsed).error = false :=
  absorbing_not_finite.error_of_part
    (.inr (.inl (SignedBinary.isFinite_hypot _ _ (.inr (absorbing_not_finite.norm h)))))

/-! ### Mapping an iterate back -/

/-- How an iterate `z` of numbers is mapped back to an iterate `w`. -/
structure Mapped (s : Scaled α) (z w : Iterate α) : Prop where
  /-- The components that are mapped back are numbers. -/
  isFinite : ∀ c, ¬ z.At (fun x => Scalar.isFinite x = false) c
  /-- A component of the point is a quotient, and infinite only if that is too large. -/
  primal : ∀ (j : ℕ) (x : α), w.primal[j]? = some x → ∃ a d : α, z.primal[j]? = some a ∧
    s.variableFactors[j]? = some d ∧ x = a / d ∧ ¬ IsUndefined x ∧
      (Scalar.isFinite x = false → Overflows a d)
  /-- A multiplier is a quotient, and infinite only if that is too large. -/
  dual : ∀ (i : ℕ) (y : α), w.dual[i]? = some y → ∃ a d : α, z.dual[i]? = some a ∧
    s.constraintFactors[i]? = some d ∧ y = a / d ∧ ¬ IsUndefined y ∧
      (Scalar.isFinite y = false → Overflows a d)
  /-- A component of the point is not infinite beyond a finite bound. -/
  bounds : ∀ (j : ℕ) (x : α) (b : α × α), w.primal[j]? = some x → s.bounds[j]? = some b →
    (Scalar.isFinite b.1 = true → value x ≠ .bot) ∧ (Scalar.isFinite b.2 = true → value x ≠ .top)
  /-- The multiplier of an inequality is not infinite below zero. -/
  signs : ∀ (i : ℕ) (y : α), s.problem.equalities ≤ i → w.dual[i]? = some y → value y ≠ .bot

omit [SignedBinary α] in
/-- What is mapped back by division is a quotient at each place. -/
theorem exists_of_divide [LawfulBinary α] {factors x : Vec α} {q : α}
    (hq : (Vec.divide factors x)[j]? = some q)
    (hx : ∀ a, x[j]? = some a → Scalar.isFinite a = true)
    (hd : ∀ d, factors[j]? = some d → IsDivisor d) :
    ∃ a d : α, x[j]? = some a ∧ factors[j]? = some d ∧ q = a / d ∧ ¬ IsUndefined q ∧
      (Scalar.isFinite q = false → Overflows a d) := by
  rw [Vec.divide, Array.getElem?_zipWith_eq_some] at hq
  obtain ⟨a, d, ha, hd', rfl⟩ := hq
  obtain ⟨hundefined, hoverflow⟩ := not_undefined_div (hx a ha) (hd d hd')
  exact ⟨a, d, ha, hd', rfl, hundefined, hoverflow⟩

/-- An iterate whose error is finite consists of numbers, and so is mapped back. -/
theorem mapped (hs : s.Fits) (hdivides : s.Divides)
    (hz : z.Fits s.problem.rows s.problem.cols)
    (herror : Scalar.isFinite (s.evaluate z move iteration passes elapsed).error = true) :
    s.Mapped z ⟨s.unscalePrimal z.primal, s.unscaleDual z.dual⟩ := by
  have hbad := absorbing_not_finite (α := α)
  have hcontra {P : Prop} (h : P → Scalar.isFinite
      (s.evaluate z move iteration passes elapsed).error = false) : ¬ P := fun hP =>
    Bool.false_ne_true ((h hP).symm.trans herror)
  -- The iterate consists of numbers, and so do costs and right-hand sides.
  have hiterate (c : ℕ ⊕ ℕ) : ¬ z.At (fun x => Scalar.isFinite x = false) c :=
    hcontra (error_of_at hbad hz)
  have hfinite (v : Vec α) (j : ℕ) (h : ¬ Vec.At (fun x => Scalar.isFinite x = false) v j)
      (a : α) (ha : v[j]? = some a) : Scalar.isFinite a = true := by
    by_contra hne
    exact h (Vec.at_iff_getElem?.2 ⟨a, ha, Bool.not_eq_true _ ▸ hne⟩)
  refine ⟨hiterate, fun j x hx => ?_, fun i y hy => ?_, fun j x b hx hb => ?_, fun i y hi hy => ?_⟩
  · have hcost := hcontra fun h => hbad.error_of_primal (j := j) hz.primal (.inr h)
    refine exists_of_divide hx (hfinite _ _ (hiterate (.inl j))) fun d hd => ?_
    obtain ⟨hj, -⟩ := Array.getElem?_eq_some_iff.1 hd
    rw [hs.variableFactors, Problem.cols, ← s.problem.size_objective] at hj
    exact hdivides.variableFactors j
      ⟨hj, hfinite _ _ hcost _ (Array.getElem?_eq_getElem hj)⟩ d hd
  · have hrhs := hcontra fun h => hbad.error_of_dual (j := i) hz.dual (.inr h)
    refine exists_of_divide hy (hfinite _ _ (hiterate (.inr i))) fun d hd => ?_
    obtain ⟨hi, -⟩ := Array.getElem?_eq_some_iff.1 hd
    rw [hs.constraintFactors, Problem.rows, ← s.problem.size_rightSide] at hi
    exact hdivides.constraintFactors i
      ⟨hi, hfinite _ _ hrhs _ (Array.getElem?_eq_getElem hi)⟩ d hd
  · have hviolation : (s.boundViolations z.primal)[j]? = some (boundViolation b x) := by
      rw [boundViolations, Array.getElem?_zipWith_eq_some]
      exact ⟨b, x, hb, hx, rfl⟩
    have hinfinite := hcontra fun h => isFinite_error_of_boundViolations (z := z) (j := j)
      (Vec.at_iff_getElem?.2 ⟨_, hviolation, isFinite_boundViolation h⟩)
    exact ⟨fun hb h => hinfinite (.inl ⟨hb, h⟩), fun hb h => hinfinite (.inr ⟨hb, h⟩)⟩
  · obtain ⟨hlt, rfl⟩ := Array.getElem?_eq_some_iff.1 hy
    refine hcontra fun h => isFinite_error_of_signViolations (z := z)
      (j := i - s.problem.equalities) ⟨?_, ?_⟩
    · rw [signViolations, Array.size_map, Array.size_extract, Nat.min_self]
      exact Nat.sub_lt_sub_right hi hlt
    · simp only [signViolations, Array.getElem_map, Array.getElem_extract, Nat.add_sub_cancel' hi]
      exact isFinite_positivePart_top (value_neg_bot h)

/-- Factors of magnitude one or more leave numbers. -/
theorem Mapped.isFinite_of_one_le {w : Iterate α} (h : s.Mapped z w) :
    ((∀ d ∈ s.variableFactors, 1 ≤ Scalar.abs d) →
      ∀ x ∈ w.primal, Scalar.isFinite x = true) ∧
    ((∀ d ∈ s.constraintFactors, 1 ≤ Scalar.abs d) →
      ∀ y ∈ w.dual, Scalar.isFinite y = true) := by
  refine ⟨fun hone x hx => ?_, fun hone y hy => ?_⟩
  · obtain ⟨j, hj⟩ := Array.mem_iff_getElem?.1 hx
    obtain ⟨a, d, -, hd, -, -, hoverflow⟩ := h.primal j x hj
    by_contra hne
    exact (hoverflow (Bool.not_eq_true _ ▸ hne)).not_one_le_abs
      (hone d (Array.mem_of_getElem? hd))
  · obtain ⟨i, hi⟩ := Array.mem_iff_getElem?.1 hy
    obtain ⟨a, d, -, hd, -, -, hoverflow⟩ := h.dual i y hi
    by_contra hne
    exact (hoverflow (Bool.not_eq_true _ ▸ hne)).not_one_le_abs
      (hone d (Array.mem_of_getElem? hd))

end Scaled

/-! ### Optimal solutions -/

variable {α : Type} [Scalar α] [Binary α] [SignedBinary α]

/-- The components of an optimal solution, found under a finite tolerance.

    They come from an iterate of numbers, none of them is no number, and one is infinite only
    if its quotient with its factor is too large for the format. It is then not on the side
    of a finite bound, and not a multiplier of an inequality below zero. Without balancing, and
    with factors of magnitude one or more, all components are finite. -/
theorem solve?_optimal_mapped {clock : ℕ → Float} {p : Problem α} {par : Params α}
    {sol : Solution α} {events : Array (Event α)}
    (hsolve : solve? clock p par = .ok ⟨.ok sol, events⟩)
    (htol : Scalar.isFinite par.tolerance = true) (hopt : sol.status = .optimal) :
    ∃ k, IsLeast {i | (par.run clock p).Stops (par.start p) i} k ∧
      (par.scaled p).1.Mapped ((par.run clock p).iterate (par.start p) k)
        ⟨sol.primal, sol.dual⟩ ∧
      ((∀ d ∈ (par.scaled p).1.variableFactors, 1 ≤ Scalar.abs d) →
        ∀ x ∈ sol.primal, Scalar.isFinite x = true) ∧
      ((∀ d ∈ (par.scaled p).1.constraintFactors, 1 ≤ Scalar.abs d) →
        ∀ y ∈ sol.dual, Scalar.isFinite y = true) ∧
      (par.rescale = false → (∀ x ∈ sol.primal, Scalar.isFinite x = true) ∧
        ∀ y ∈ sol.dual, Scalar.isFinite y = true) := by
  have hpar := error?_eq_none_of_solve? hsolve
  have hsound := (Params.accepted_of_error?_eq_none hpar).sound clock
  obtain ⟨k, last, hk, hlast, -, events', hsolve'⟩ := solve?_eq clock hpar
  obtain ⟨rfl, -⟩ : _ = sol ∧ events' = events := by
    simpa [hsolve'] using hsolve
  have herror : Scalar.isFinite ((par.run clock p).record (par.start p) k).error = true :=
    isFinite_of_sqrt_le htol ((Run.statusAt_eq_optimal_iff k).1 hopt)
  have hmapped := Scaled.mapped hsound.scaled (Scaled.divides_scaled par p)
    (Run.fits_iterate hsound.start k) herror
  rw [hlast.iterate]
  refine ⟨k, hk, hmapped, hmapped.isFinite_of_one_le.1, hmapped.isFinite_of_one_le.2, ?_⟩
  intro hrescale
  have hones (n : ℕ) : ∀ d ∈ (Vec.ones n : Vec α), 1 ≤ Scalar.abs d := by
    intro d hd
    rw [Array.eq_of_mem_replicate hd, Binary.le_iff, value_abs, value_one]
    exact real_le_real.2 (le_abs_self 1)
  have hfactors : (par.run clock p).scaled = .identity p := by
    change (par.scaled p).1 = _
    rw [Params.scaled, hrescale]
    rfl
  refine ⟨hmapped.isFinite_of_one_le.1 ?_, hmapped.isFinite_of_one_le.2 ?_⟩
  · rw [hfactors]
    exact hones _
  · rw [hfactors]
    exact hones _

/-! ### A solution at infinity -/

omit [Binary α] [SignedBinary α] in
/-- The program that asks one variable without cost or bounds to satisfy the equation
    `a * x = b`. -/
def Problem.equation (a b : α) : Problem α :=
  { Problem.single α with
    objective := #[0]
    matrix := (Problem.single α).matrix.mapValues fun _ => a
    rightSide := #[b]
    lower := #[-Scalar.infinity]
    upper := #[Scalar.infinity] }

/-- Parameters of a run with one pass of balancing and two steps of size one. -/
def Params.balancedOnce (α : Type) [Scalar α] : Params α :=
  { (default : Params α) with
    stepSize := some 1, meanPasses := 0, largestPasses := 1, iterationLimit := 2 }

omit [Binary α] [SignedBinary α] in
/-- Whether a run ends with an optimal solution whose point has an infinite component. -/
def Params.endsAtInfinity (par : Params α) (p : Problem α) : Bool :=
  match solve? (fun _ => 0) p par with
  | .ok ⟨.ok sol, _⟩ => sol.status == .optimal && sol.primal.any fun x => !Scalar.isFinite x
  | _ => false

omit [Binary α] [SignedBinary α] in
theorem Params.exists_of_endsAtInfinity {par : Params α} {p : Problem α}
    (h : par.endsAtInfinity p = true) :
    ∃ sol events, solve? (fun _ => 0) p par = .ok ⟨.ok sol, events⟩ ∧ sol.status = .optimal ∧
      ∃ x ∈ sol.primal, Scalar.isFinite x = false := by
  rw [endsAtInfinity] at h
  split at h
  · rename_i sol events hsolve
    rw [Bool.and_eq_true, beq_iff_eq, Array.any_eq_true'] at h
    obtain ⟨hopt, x, hx, hinfinite⟩ := h
    exact ⟨sol, events, hsolve, hopt, x, hx, by simpa using hinfinite⟩
  · exact nomatch h

/-- In both arithmetics, an equation between a small coefficient and a large right-hand side.
    The solution is too large for the format, but its image is not, and satisfies the scaled
    equation. -/
theorem Params.endsAtInfinity_equation :
    (balancedOnce Float).endsAtInfinity
        (.equation (Float.ofBits 0x3C30000000000000) (Float.ofBits 0x7D30000000000000)) = true ∧
      (balancedOnce Float32).endsAtInfinity
        (.equation (Float32.ofBits 0x39800000) (Float32.ofBits 0x7A800000)) = true := by
  decide +kernel

/-- In both arithmetics, the quotient at which a component of an optimal solution is too large. -/
theorem exists_overflow_equation :
    (∃ sol events, solve? (fun _ => 0) (.equation (Float.ofBits 0x3C30000000000000)
        (Float.ofBits 0x7D30000000000000)) (.balancedOnce Float) = .ok ⟨.ok sol, events⟩ ∧
      ∃ x ∈ sol.primal, ∃ a d, x = a / d ∧ Overflows a d) ∧
    ∃ sol events, solve? (fun _ => 0) (.equation (Float32.ofBits 0x39800000)
        (Float32.ofBits 0x7A800000)) (.balancedOnce Float32) = .ok ⟨.ok sol, events⟩ ∧
      ∃ x ∈ sol.primal, ∃ a d, x = a / d ∧ Overflows a d := by
  constructor
  · obtain ⟨sol, events, hsolve, hopt, x, hx, hinfinite⟩ :=
      Params.exists_of_endsAtInfinity Params.endsAtInfinity_equation.1
    have htol : Scalar.isFinite (Params.balancedOnce Float).tolerance = true := by decide +kernel
    obtain ⟨k, -, hmapped, -⟩ := solve?_optimal_mapped hsolve htol hopt
    obtain ⟨j, hj⟩ := Array.mem_iff_getElem?.1 hx
    obtain ⟨a, d, -, -, hquotient, -, hoverflow⟩ := hmapped.primal j x hj
    exact ⟨sol, events, hsolve, x, hx, a, d, hquotient, hoverflow hinfinite⟩
  · obtain ⟨sol, events, hsolve, hopt, x, hx, hinfinite⟩ :=
      Params.exists_of_endsAtInfinity Params.endsAtInfinity_equation.2
    have htol : Scalar.isFinite (Params.balancedOnce Float32).tolerance = true := by decide +kernel
    obtain ⟨k, -, hmapped, -⟩ := solve?_optimal_mapped hsolve htol hopt
    obtain ⟨j, hj⟩ := Array.mem_iff_getElem?.1 hx
    obtain ⟨a, d, -, -, hquotient, -, hoverflow⟩ := hmapped.primal j x hj
    exact ⟨sol, events, hsolve, x, hx, a, d, hquotient, hoverflow hinfinite⟩

/-- In both arithmetics, there are a problem with finite data that is accepted and parameters that
    are accepted, with a finite tolerance, for which a run finds an infinite point to be
    optimal. -/
theorem exists_optimal_infinite :
    (∃ (p : Problem Float) (par : Params Float), p.Accepted ∧
      (∀ c ∈ p.objective, Scalar.isFinite c = true) ∧
      (∀ e ∈ p.matrix.entries, Scalar.isFinite e.value = true) ∧
      (∀ b ∈ p.rightSide, Scalar.isFinite b = true) ∧
      par.error? p.rows p.cols = none ∧ Scalar.isFinite par.tolerance = true ∧
      ∃ sol events, solve? (fun _ => 0) p par = .ok ⟨.ok sol, events⟩ ∧ sol.status = .optimal ∧
        ∃ x ∈ sol.primal, Scalar.isFinite x = false) ∧
    ∃ (p : Problem Float32) (par : Params Float32), p.Accepted ∧
      (∀ c ∈ p.objective, Scalar.isFinite c = true) ∧
      (∀ e ∈ p.matrix.entries, Scalar.isFinite e.value = true) ∧
      (∀ b ∈ p.rightSide, Scalar.isFinite b = true) ∧
      par.error? p.rows p.cols = none ∧ Scalar.isFinite par.tolerance = true ∧
      ∃ sol events, solve? (fun _ => 0) p par = .ok ⟨.ok sol, events⟩ ∧ sol.status = .optimal ∧
        ∃ x ∈ sol.primal, Scalar.isFinite x = false := by
  obtain ⟨hends, hends'⟩ := Params.endsAtInfinity_equation
  refine ⟨⟨_, _, ?_, ?_, ?_, ?_, ?_, ?_, Params.exists_of_endsAtInfinity hends⟩,
    _, _, ?_, ?_, ?_, ?_, ?_, ?_, Params.exists_of_endsAtInfinity hends'⟩
  · exact Problem.accepted_iff_emptyBounds?.2 (by decide +kernel)
  · decide +kernel
  · decide +kernel
  · decide +kernel
  · decide +kernel
  · decide +kernel
  · exact Problem.accepted_iff_emptyBounds?.2 (by decide +kernel)
  · decide +kernel
  · decide +kernel
  · decide +kernel
  · decide +kernel
  · decide +kernel

end HybridGradient
