import HybridGradient.Proofs.Certificate
import HybridGradient.Proofs.RealStep

/-!
# Solutions

What a solution is, the step and the examination each say in their own way: the step leaves
a solution where it is, and the examination finds no error in it. Both come to the conditions
of complementary slackness, which treat variables and constraints alike: each component of a
point and of the multipliers is stationary with respect to its own cost.

* `Program.Solves`: the conditions on a point and multipliers;
* `Program.step_eq_iff`, `Program.error_eq_zero_iff`: the step and the error decide them;
* `Program.solves_scaled_iff`: they do not depend on factors;
* `Scaled.step_eq_iff_error_eq_zero`: the step of a scaled problem leaves exactly those real
  iterates where they are in which its examination finds no error.
-/

namespace HybridGradient

open Extended Matrix

variable {m n : ℕ}

/-! ### What the bounds of a variable absorb -/

namespace Program

theorem absorbed_of_pos (l u : Extended) {r : ℝ} (hr : 0 < r) : absorbed l u r = l.toReal * r := by
  rw [absorbed, max_eq_left hr.le, max_eq_right (neg_nonpos.2 hr.le), mul_zero, sub_zero]

theorem absorbed_of_neg (l u : Extended) {r : ℝ} (hr : r < 0) : absorbed l u r = u.toReal * r := by
  rw [absorbed, max_eq_right hr.le, max_eq_left (neg_nonneg.2 hr.le), mul_zero, zero_sub,
    mul_neg, neg_neg]

theorem absorbed_zero (l u : Extended) : absorbed l u 0 = 0 := by simp [absorbed]

theorem unabsorbed_zero (l u : Extended) : unabsorbed l u 0 = 0 := by
  cases l <;> cases u <;> simp [unabsorbed]

/-- A positive cost is absorbed by a lower bound. -/
theorem unabsorbed_eq_zero_iff_of_pos (l u : Extended) {r : ℝ} (hr : 0 < r) :
    unabsorbed l u r = 0 ↔ ∃ t, l = real t := by
  cases l <;> cases u <;> simp [unabsorbed, hr.le, hr.ne']

/-- A negative cost is absorbed by an upper bound. -/
theorem unabsorbed_eq_zero_iff_of_neg (l u : Extended) {r : ℝ} (hr : r < 0) :
    unabsorbed l u r = 0 ↔ ∃ t, u = real t := by
  cases l <;> cases u <;> simp [unabsorbed, hr.le, hr.ne]

/-- What the bounds absorb is no more than any number between them comes to. -/
theorem absorbed_le_mul {l u : Extended} {r t : ℝ} (h : unabsorbed l u r = 0)
    (ht : Between l u t) : absorbed l u r ≤ r * t := by
  have hle := absorbed_le ht.1 ht.2 r
  rwa [h, abs_zero, zero_mul, add_zero] at hle

end Program

/-- A number is stationary if its bounds absorb its cost, and absorb all that it comes to. -/
theorem Extended.stationary_iff {l u : Extended} {x r : ℝ} : Stationary l u x r ↔
    Between l u x ∧ Program.unabsorbed l u r = 0 ∧ Program.absorbed l u r = r * x := by
  rcases lt_trichotomy r 0 with hr | rfl | hr
  · rw [Program.unabsorbed_eq_zero_iff_of_neg l u hr, Program.absorbed_of_neg l u hr]
    constructor
    · rintro ⟨hx, -, hu⟩
      obtain rfl := hu hr
      exact ⟨hx, ⟨x, rfl⟩, mul_comm x r⟩
    · rintro ⟨hx, ⟨t, rfl⟩, heq⟩
      refine ⟨hx, fun hr' => absurd hr' hr.not_gt, fun _ => ?_⟩
      rw [toReal_real, mul_comm] at heq
      rw [mul_left_cancel₀ hr.ne heq]
  · rw [Program.unabsorbed_zero, Program.absorbed_zero, zero_mul]
    exact ⟨fun h => ⟨h.between, rfl, rfl⟩,
      fun h => ⟨h.1, fun h => absurd h (lt_irrefl 0), fun h => absurd h (lt_irrefl 0)⟩⟩
  · rw [Program.unabsorbed_eq_zero_iff_of_pos l u hr, Program.absorbed_of_pos l u hr]
    constructor
    · rintro ⟨hx, hl, -⟩
      obtain rfl := hl hr
      exact ⟨hx, ⟨x, rfl⟩, mul_comm x r⟩
    · rintro ⟨hx, ⟨t, rfl⟩, heq⟩
      refine ⟨hx, fun _ => ?_, fun hr' => absurd hr' hr.not_gt⟩
      rw [toReal_real, mul_comm] at heq
      rw [mul_left_cancel₀ hr.ne' heq]

/-! ### The conditions -/

namespace Program

variable {P : Program m n} {x : Fin n → ℝ} {y : Fin m → ℝ}

/-- A point and multipliers satisfy all conditions, and are complementary: a variable whose
    reduced cost is not zero is at a bound, and so is a multiplier whose constraint is not
    satisfied with equality. -/
structure Solves (P : Program m n) (x : Fin n → ℝ) (y : Fin m → ℝ) : Prop where
  primal : ∀ j, Stationary (P.lower j) (P.upper j) (x j) (P.reducedCost y j)
  dual : ∀ i, Stationary (P.signBound i) top (y i) (P.excess x i)

/-- The step leaves exactly the solutions where they are. -/
theorem step_eq_iff (hP : P.Bounded) {t : ℝ} (ht : 0 < t) (z : Point m n) :
    P.step t z = z ↔ P.Solves z.1 z.2 := by
  have hprimal : P.stepPrimal t z = z.1 ↔
      ∀ j, Stationary (P.lower j) (P.upper j) (z.1 j) (P.reducedCost z.2 j) := by
    rw [funext_iff]
    exact forall_congr' fun j => nearest_sub_eq_iff (hP j) ht _ _
  rw [step, Prod.ext_iff]
  constructor
  · rintro ⟨hx, hy⟩
    -- The point is extrapolated to itself.
    have hextra : (2 : ℝ) • P.stepPrimal t z - z.1 = z.1 := by
      rw [show P.stepPrimal t z = z.1 from hx, two_smul, add_sub_cancel_right]
    refine ⟨hprimal.1 hx, fun i => ?_⟩
    have hi := congrFun hy i
    dsimp only [stepDual] at hi
    rw [hextra] at hi
    exact (nearest_sub_eq_iff (P.exists_between_signBound i) ht _ _).1 hi
  · rintro ⟨hx, hy⟩
    have hx' := hprimal.2 hx
    have hextra : (2 : ℝ) • P.stepPrimal t z - z.1 = z.1 := by
      rw [hx', two_smul, add_sub_cancel_right]
    refine ⟨hx', funext fun i => ?_⟩
    dsimp only [stepDual]
    rw [hextra]
    exact (nearest_sub_eq_iff (P.exists_between_signBound i) ht _ _).2 (hy i)

/-! ### Solutions have no error -/

theorem boundViolation_eq_zero_iff (hP : P.Bounded) :
    P.boundViolation x = 0 ↔ ∀ j, Between (P.lower j) (P.upper j) (x j) := by
  rw [funext_iff]
  refine forall_congr' fun j => ?_
  obtain ⟨t, hl, hu⟩ := hP j
  have hbelow : below (P.lower j) (x j) = 0 ↔ P.lower j ≤ real (x j) := by
    cases hlower : P.lower j with
    | real l => rw [below, max_eq_right_iff, sub_nonpos, real_le_real]
    | bot => exact iff_of_true rfl (bot_le_real _)
    | top => exact absurd (hlower ▸ hl) (not_top_le_real t)
    | undefined => exact absurd (hlower ▸ hl) (not_undefined_le _)
  have habove : above (P.upper j) (x j) = 0 ↔ real (x j) ≤ P.upper j := by
    cases hupper : P.upper j with
    | real u => rw [above, max_eq_right_iff, sub_nonpos, real_le_real]
    | top => exact iff_of_true rfl (real_le_top _)
    | bot => exact absurd (hupper ▸ hu) (not_real_le_bot t)
    | undefined => exact absurd (hupper ▸ hu) (not_le_undefined _)
  rw [boundViolation, Pi.zero_apply, Between,
    add_eq_zero_iff_of_nonneg (below_nonneg _ _) (above_nonneg _ _), hbelow, habove]

theorem signViolation_eq_zero_iff :
    P.signViolation y = 0 ↔ ∀ i, Between (P.signBound i) top (y i) := by
  rw [funext_iff]
  refine forall_congr' fun i => ?_
  rw [signViolation, signBound, Between, Pi.zero_apply]
  split
  · exact iff_of_true rfl ⟨bot_le_real _, real_le_top _⟩
  · rw [max_eq_right_iff, neg_nonpos, real_le_real]
    exact (and_iff_left (real_le_top _)).symm

/-- What a constraint is violated by is what the bounds of its multiplier do not absorb of
    the excess. -/
theorem rowViolation_eq_unabsorbed (i : Fin m) :
    P.rowViolation x i = unabsorbed (P.signBound i) top (P.excess x i) := by
  rw [rowViolation, signBound]
  split
  · rfl
  · rfl

/-- The bounds of a multiplier are worth nothing. -/
theorem absorbed_signBound (i : Fin m) (e : ℝ) : absorbed (P.signBound i) top e = 0 := by
  rw [signBound]
  split <;> simp [absorbed, toReal]

theorem unabsorbed_excess (hrow : P.rowViolation x = 0) (i : Fin m) :
    unabsorbed (P.signBound i) top (P.excess x i) = 0 := by
  rw [← rowViolation_eq_unabsorbed, hrow, Pi.zero_apply]

/-- Where nothing is violated, each multiplier finds an excess that it cannot gain from. -/
theorem excess_mul_nonneg (hrow : P.rowViolation x = 0) (hsign : P.signViolation y = 0)
    (i : Fin m) : 0 ≤ P.excess x i * y i := by
  have hle := absorbed_le_mul (unabsorbed_excess hrow i) (signViolation_eq_zero_iff.1 hsign i)
  rwa [absorbed_signBound] at hle

/-- The objectives differ by what the bounds absorb too little of the costs of all variables
    and multipliers. -/
theorem primalObjective_sub_dualObjective :
    P.primalObjective x - P.dualObjective y =
      ∑ j, (P.reducedCost y j * x j - absorbed (P.lower j) (P.upper j) (P.reducedCost y j)) +
        ∑ i, P.excess x i * y i := by
  have hreduced : P.reducedCost y ⬝ᵥ x = P.primalObjective x - y ⬝ᵥ (P.coeff *ᵥ x) :=
    P.reducedCost_dotProduct x y
  have hexcess : P.excess x ⬝ᵥ y = y ⬝ᵥ (P.coeff *ᵥ x) - P.rhs ⬝ᵥ y := by
    rw [excess, sub_dotProduct, dotProduct_comm y]
  rw [Finset.sum_sub_distrib, ← dotProduct, ← dotProduct, hreduced, hexcess, dualObjective]
  ring

/-- Without an error there is none of its parts. -/
theorem violations_eq_zero (h : P.error x y = 0) : P.rowViolation x = 0 ∧
    P.boundViolation x = 0 ∧ P.costViolation y = 0 ∧ P.signViolation y = 0 ∧
      P.primalObjective x - P.dualObjective y = 0 := by
  obtain ⟨hprimal, hdual, hgap⟩ := le_of_error_le h.le
  refine ⟨funext fun i => abs_nonpos_iff.1 (rowViolation_le hprimal i),
    funext fun j => abs_nonpos_iff.1 (boundViolation_le hprimal j),
    length_eq_zero.1 (le_antisymm (length_costViolation_le hdual) (length_nonneg _)),
    length_eq_zero.1 (le_antisymm (length_signViolation_le hdual) (length_nonneg _)),
    abs_nonpos_iff.1 hgap⟩

/-- Exactly the solutions have no error. -/
theorem error_eq_zero_iff (hP : P.Bounded) : P.error x y = 0 ↔ P.Solves x y := by
  constructor
  · intro h
    obtain ⟨hrow, hbound, hcost, hsign, hgap⟩ := violations_eq_zero h
    rw [boundViolation_eq_zero_iff hP] at hbound
    have hcost' (j : Fin n) : unabsorbed (P.lower j) (P.upper j) (P.reducedCost y j) = 0 :=
      congrFun hcost j
    -- No bound absorbs more than there is, so without a gap none absorbs less.
    have hx (j : Fin n) : 0 ≤ P.reducedCost y j * x j -
        absorbed (P.lower j) (P.upper j) (P.reducedCost y j) :=
      sub_nonneg.2 (absorbed_le_mul (hcost' j) (hbound j))
    have hy := excess_mul_nonneg hrow hsign
    rw [primalObjective_sub_dualObjective, add_eq_zero_iff_of_nonneg
      (Finset.sum_nonneg fun j _ => hx j) (Finset.sum_nonneg fun i _ => hy i),
      Finset.sum_eq_zero_iff_of_nonneg fun j _ => hx j,
      Finset.sum_eq_zero_iff_of_nonneg fun i _ => hy i] at hgap
    refine ⟨fun j => stationary_iff.2 ⟨hbound j, hcost' j, ?_⟩,
      fun i => stationary_iff.2
        ⟨signViolation_eq_zero_iff.1 hsign i, unabsorbed_excess hrow i, ?_⟩⟩
    · exact (sub_eq_zero.1 (hgap.1 j (Finset.mem_univ j))).symm
    · rw [absorbed_signBound, hgap.2 i (Finset.mem_univ i)]
  · rintro ⟨hprimal, hdual⟩
    have hx (j : Fin n) := stationary_iff.1 (hprimal j)
    have hy (i : Fin m) := stationary_iff.1 (hdual i)
    refine error_eq_zero (funext fun i => ?_) ((boundViolation_eq_zero_iff hP).2 fun j => (hx j).1)
      (funext fun j => (hx j).2.1) (signViolation_eq_zero_iff.2 fun i => (hy i).1) ?_
    · rw [rowViolation_eq_unabsorbed]
      exact (hy i).2.1
    · rw [gap, primalObjective_sub_dualObjective, Finset.sum_eq_zero fun j _ =>
        sub_eq_zero.2 (hx j).2.2.symm, Finset.sum_eq_zero fun i _ => ?_, add_zero, abs_zero]
      rw [← (hy i).2.2, absorbed_signBound]

/-! ### Scaled programs -/

theorem reducedCost_scaled {r : Fin m → ℝ} (hr : ∀ i, 0 < r i) (v : Fin n → ℝ) :
    (P.scaled r v).reducedCost (r * y) = P.reducedCost y / v := by
  rw [reducedCost, scaled, descale_transpose, descale_mulVec _ _ hr, div_sub_div_factors,
    reducedCost]

theorem excess_scaled (r : Fin m → ℝ) {v : Fin n → ℝ} (hv : ∀ j, 0 < v j) :
    (P.scaled r v).excess (v * x) = P.excess x / r := by
  rw [excess, scaled, descale_mulVec _ _ hv, div_sub_div_factors, excess]

end Program

/-- Stationary numbers stay stationary when they and their bounds are multiplied by a factor
    and their cost is divided by it. -/
theorem Extended.stationary_stretch_iff {d : ℝ} (hd : 0 < d) {l u : Extended} {x r : ℝ} :
    Stationary (l.stretch d) (u.stretch d) (d * x) (r / d) ↔ Stationary l u x r := by
  have heq (b : Extended) : b.stretch d = real (d * x) ↔ b = real x := by
    cases b with
    | real b =>
      rw [stretch, real.injEq, real.injEq]
      exact mul_right_inj' hd.ne'
    | top | bot | undefined => simp [stretch]
  constructor
  · rintro ⟨hx, hl, hu⟩
    exact ⟨(between_stretch_iff hd).1 hx, fun hr => (heq l).1 (hl (div_pos hr hd)),
      fun hr => (heq u).1 (hu (div_neg_of_neg_of_pos hr hd))⟩
  · rintro ⟨hx, hl, hu⟩
    exact ⟨(between_stretch_iff hd).2 hx,
      fun hr => (heq l).2 (hl ((div_pos_iff_of_pos_right hd).1 hr)),
      fun hr => (heq u).2 (hu (by rwa [div_lt_iff₀ hd, zero_mul] at hr))⟩

/-- The images of solutions are the solutions of the scaled program. -/
theorem Program.solves_scaled_iff {P : Program m n} {r : Fin m → ℝ} {v : Fin n → ℝ}
    (hr : ∀ i, 0 < r i) (hv : ∀ j, 0 < v j) {x : Fin n → ℝ} {y : Fin m → ℝ} :
    (P.scaled r v).Solves (v * x) (r * y) ↔ P.Solves x y := by
  have hprimal (j : Fin n) : Stationary ((P.scaled r v).lower j) ((P.scaled r v).upper j)
      ((v * x) j) ((P.scaled r v).reducedCost (r * y) j) ↔
        Stationary (P.lower j) (P.upper j) (x j) (P.reducedCost y j) := by
    rw [reducedCost_scaled hr]
    exact stationary_stretch_iff (hv j)
  have hdual (i : Fin m) : Stationary ((P.scaled r v).signBound i) top ((r * y) i)
      ((P.scaled r v).excess (v * x) i) ↔
        Stationary (P.signBound i) top (y i) (P.excess x i) := by
    have hbound : (P.scaled r v).signBound i = (P.signBound i).stretch (r i) := by
      rw [signBound, signBound, scaled]
      split
      · rfl
      · rw [stretch, mul_zero]
    rw [excess_scaled r hv, hbound]
    exact stationary_stretch_iff (u := top) (hr i)
  exact ⟨fun h => ⟨fun j => (hprimal j).1 (h.primal j), fun i => (hdual i).1 (h.dual i)⟩,
    fun h => ⟨fun j => (hprimal j).2 (h.primal j), fun i => (hdual i).2 (h.dual i)⟩⟩

/-! ### Scaled problems -/

namespace Scaled

/-- The image of a point and multipliers is left where it is by the step of a scaled problem
    if and only if the program sees no error in them. -/
theorem Scales.step_eq_iff {s : Scaled Extended} {P : Program m n} {r : Fin m → ℝ}
    {v : Fin n → ℝ} (h : s.Scales P r v) (hP : P.Bounded) {t : ℝ} (ht : 0 < t)
    (x : Fin n → ℝ) (y : Fin m → ℝ) :
    s.problem.step (.real t) (.real (v * x, r * y)) = .real (v * x, r * y) ↔
      P.error x y = 0 := by
  have hscaled := hP.scaled r h.variable_pos
  rw [h.poses.step hscaled, Iterate.real_injective.eq_iff, Program.step_eq_iff hscaled ht,
    Program.solves_scaled_iff h.constraint_pos h.variable_pos, Program.error_eq_zero_iff hP]

/-- An iterate of real numbers is left where it is by the step of a problem as it is, or of
    a balanced one, if and only if its examination finds no error. -/
theorem step_eq_iff_error_eq_zero {p : Problem Extended} (hp : p.IsFinite) (hacc : p.Accepted)
    (hl : .top ∉ p.lower) (hu : .bot ∉ p.upper) {s : Scaled Extended}
    (hs : s = identity p ∨ ∃ means largests least, s = balanced p means largests (.real least))
    {t : ℝ} (ht : 0 < t) (x : Fin p.cols → ℝ) (y : Fin p.rows → ℝ) (move : Iterate Extended)
    (i : ℕ) (passes elapsed : Float) :
    s.problem.step (.real t) ⟨Vec.real x, Vec.real y⟩ = ⟨Vec.real x, Vec.real y⟩ ↔
      (s.evaluate ⟨Vec.real x, Vec.real y⟩ move i passes elapsed).error = 0 := by
  obtain ⟨r, v, h⟩ : ∃ r v, s.Scales p.program r v := by
    rcases hs with rfl | ⟨means, largests, least, rfl⟩
    · exact ⟨1, 1, scales_identity hp⟩
    · exact exists_scales_balanced hp means largests least
  -- The iterate is the image of what it is unscaled to.
  obtain ⟨x, y, rfl, rfl⟩ := h.exists_unscaled x y
  rw [h.error_evaluate, zero_eq, Extended.real_injective.eq_iff]
  exact h.step_eq_iff (hacc.bounded hl hu) ht x y

/-- The step of the balanced small problem leaves the image of the solution where it is. -/
theorem exists_step_eq_blend :
    ∃ x y : Fin 2 → ℝ,
      ((balanced .blend 10 4 (.real 1)).evaluate ⟨Vec.real x, Vec.real y⟩ (.zeros 2 2)
        0 0 0).error = 0 ∧
      (balanced .blend 10 4 (.real 1)).problem.step (.real (1 / 2)) ⟨Vec.real x, Vec.real y⟩ =
        ⟨Vec.real x, Vec.real y⟩ := by
  obtain ⟨hacc, hl, hu⟩ := Problem.accepted_blend
  obtain ⟨r, v, h⟩ : ∃ r v : Fin 2 → ℝ, (balanced .blend 10 4 (.real 1)).Scales .blend r v :=
    exists_scales_balanced Problem.isFinite_blend 10 4 1
  have herror : ((balanced .blend 10 4 (.real 1)).evaluate
      ⟨Vec.real (v * ![0, 1]), Vec.real (r * ![9 / 8, 0])⟩ (.zeros 2 2) 0 0 0).error = 0 := by
    rw [h.error_evaluate, Program.error_blend, zero_eq]
  exact ⟨v * ![0, 1], r * ![9 / 8, 0], herror,
    (step_eq_iff_error_eq_zero Problem.isFinite_blend hacc hl hu (.inr ⟨10, 4, 1, rfl⟩)
      one_half_pos _ _ _ _ _ _).2 herror⟩

end Scaled

end HybridGradient
