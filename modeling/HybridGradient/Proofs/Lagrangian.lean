import HybridGradient.Proofs.Solutions

/-!
# The dual objective as a bound

Multipliers put the constraints into the cost. What is left of the program is to minimise the
Lagrangian among the points within their bounds, and it falls apart into the variables: each
is minimised by what its bounds absorb of its reduced cost, or not at all.

* `Program.lagrangian`: the function, which is minimised among the points of `Program.box`;
* `Program.costViolation_eq_zero_iff`: the multipliers leave no cost violated exactly if the
  Lagrangian is bounded below;
* `Program.isLeast_lagrangian`: its least value is the dual objective;
* `Scaled.isLeast_dualObjective`: what the records of a scaled problem say of the Lagrangian of
  the given one.
-/

namespace HybridGradient

open Extended Matrix

variable {m n : ℕ}

/-! ### Single variables -/

namespace Program

variable {l u : Extended} {r : ℝ}

/-- If the bounds absorb a cost, then one of the numbers between them is stationary. -/
theorem exists_stationary (hbounds : ∃ t, Between l u t) (h : unabsorbed l u r = 0) :
    ∃ t, Stationary l u t r := by
  obtain ⟨s, hs⟩ := hbounds
  rcases lt_trichotomy r 0 with hr | rfl | hr
  · obtain ⟨t, rfl⟩ := (unabsorbed_eq_zero_iff_of_neg l u hr).1 h
    exact ⟨t, ⟨le_trans_real hs.1 hs.2, real_le_real.2 le_rfl⟩, fun hr' => absurd hr' hr.not_gt,
      fun _ => rfl⟩
  · exact ⟨s, hs, fun h => absurd h (lt_irrefl 0), fun h => absurd h (lt_irrefl 0)⟩
  · obtain ⟨t, rfl⟩ := (unabsorbed_eq_zero_iff_of_pos l u hr).1 h
    exact ⟨t, ⟨real_le_real.2 le_rfl, le_trans_real hs.1 hs.2⟩, fun _ => rfl,
      fun hr' => absurd hr' hr.not_gt⟩

/-- If the bounds do not absorb a cost, then the numbers between them come to arbitrarily
    little. -/
theorem exists_mul_lt (hbounds : ∃ t, Between l u t) (h : unabsorbed l u r ≠ 0) (c : ℝ) :
    ∃ t, Between l u t ∧ r * t < c := by
  obtain ⟨s, hl, hu⟩ := hbounds
  rcases lt_trichotomy r 0 with hr | rfl | hr
  · -- No upper bound keeps the number from being as large as it takes.
    have hfree (t : ℝ) : real t ≤ u := by
      cases u with
      | top => exact real_le_top t
      | real u => exact absurd ((unabsorbed_eq_zero_iff_of_neg l _ hr).2 ⟨u, rfl⟩) h
      | bot => exact absurd hu (not_real_le_bot s)
      | undefined => exact absurd hu (not_le_undefined _)
    refine ⟨max s ((c - 1) / r), ⟨le_trans_real hl (real_le_real.2 (le_max_left _ _)),
      hfree _⟩, ?_⟩
    have hmul := mul_le_mul_of_nonpos_left (le_max_right s ((c - 1) / r)) hr.le
    rw [mul_div_cancel₀ _ hr.ne] at hmul
    linarith
  · exact absurd (unabsorbed_zero l u) h
  · have hfree (t : ℝ) : l ≤ real t := by
      cases l with
      | bot => exact bot_le_real t
      | real l => exact absurd ((unabsorbed_eq_zero_iff_of_pos _ u hr).2 ⟨l, rfl⟩) h
      | top => exact absurd hl (not_top_le_real s)
      | undefined => exact absurd hl (not_undefined_le _)
    refine ⟨min s ((c - 1) / r), ⟨hfree _, le_trans_real (real_le_real.2 (min_le_left _ _)) hu⟩,
      ?_⟩
    have hmul := mul_le_mul_of_nonneg_left (min_le_right s ((c - 1) / r)) hr.le
    rw [mul_div_cancel₀ _ hr.ne'] at hmul
    linarith

/-! ### The Lagrangian -/

variable (P : Program m n)

/-- The cost of a point, less what the multipliers make of its excess. -/
def lagrangian (y : Fin m → ℝ) (x : Fin n → ℝ) : ℝ :=
  P.cost ⬝ᵥ x - y ⬝ᵥ (P.coeff *ᵥ x - P.rhs)

variable {P} {x : Fin n → ℝ} {y : Fin m → ℝ}

/-- The Lagrangian is a sum over the variables. -/
theorem lagrangian_eq_sum :
    P.lagrangian y x = P.rhs ⬝ᵥ y + ∑ j, P.reducedCost y j * x j := by
  rw [lagrangian, dotProduct_sub, ← dotProduct, reducedCost_dotProduct, dotProduct_comm P.rhs]
  ring

/-- Replacing one variable changes the Lagrangian by what this variable comes to. -/
theorem lagrangian_update (j : Fin n) (t : ℝ) :
    P.lagrangian y (Function.update x j t) =
      P.lagrangian y x - P.reducedCost y j * x j + P.reducedCost y j * t := by
  have hrest : ∑ k ∈ Finset.univ.erase j, P.reducedCost y k * Function.update x j t k =
      ∑ k ∈ Finset.univ.erase j, P.reducedCost y k * x k :=
    Finset.sum_congr rfl fun k hk => by rw [Function.update_of_ne (Finset.ne_of_mem_erase hk)]
  rw [lagrangian_eq_sum, lagrangian_eq_sum, ← Finset.add_sum_erase _ _ (Finset.mem_univ j), hrest,
    Function.update_self, ← Finset.add_sum_erase _ (fun k => P.reducedCost y k * x k)
      (Finset.mem_univ j)]
  ring

theorem update_mem_box (hx : x ∈ P.box) {j : Fin n} {t : ℝ}
    (ht : Between (P.lower j) (P.upper j) t) : Function.update x j t ∈ P.box := by
  intro k
  rcases eq_or_ne k j with rfl | hk
  · rwa [Function.update_self]
  · rw [Function.update_of_ne hk]
    exact hx k

/-- Where the bounds absorb all costs, the dual objective is a bound on the Lagrangian. -/
theorem dualObjective_le_lagrangian (h : P.costViolation y = 0) (hx : x ∈ P.box) :
    P.dualObjective y ≤ P.lagrangian y x := by
  rw [lagrangian_eq_sum]
  exact add_le_add_right (Finset.sum_le_sum fun j _ => absorbed_le_mul (congrFun h j) (hx j)) _

/-- There, the bound is attained. -/
theorem exists_lagrangian_eq (hP : P.Bounded) (h : P.costViolation y = 0) :
    ∃ x ∈ P.box, P.lagrangian y x = P.dualObjective y := by
  choose x hx using fun j => exists_stationary (hP j) (congrFun h j)
  refine ⟨x, fun j => (hx j).between, ?_⟩
  rw [lagrangian_eq_sum, dualObjective]
  congr 1
  exact Finset.sum_congr rfl fun j _ => (stationary_iff.1 (hx j)).2.2.symm

theorem isLeast_lagrangian (hP : P.Bounded) (h : P.costViolation y = 0) :
    IsLeast (P.lagrangian y '' P.box) (P.dualObjective y) := by
  obtain ⟨x, hx, heq⟩ := exists_lagrangian_eq hP h
  refine ⟨⟨x, hx, heq⟩, ?_⟩
  rintro _ ⟨x', hx', rfl⟩
  exact dualObjective_le_lagrangian h hx'

/-- A cost that no bound absorbs lets the Lagrangian fall without end. -/
theorem not_bddBelow_lagrangian (hP : P.Bounded) {j : Fin n} (h : P.costViolation y j ≠ 0) :
    ¬ BddBelow (P.lagrangian y '' P.box) := by
  rintro ⟨c, hc⟩
  obtain ⟨x, hx⟩ := hP.nonempty_box
  obtain ⟨t, ht, hlt⟩ := exists_mul_lt (hP j) h (c - (P.lagrangian y x - P.reducedCost y j * x j))
  have hle := hc ⟨_, update_mem_box hx ht, rfl⟩
  rw [lagrangian_update] at hle
  linarith

theorem costViolation_eq_zero_iff (hP : P.Bounded) :
    P.costViolation y = 0 ↔ BddBelow (P.lagrangian y '' P.box) := by
  constructor
  · intro h
    exact ⟨_, (isLeast_lagrangian hP h).2⟩
  · intro h
    funext j
    by_contra hj
    exact not_bddBelow_lagrangian hP hj h

/-! ### The residuals -/

theorem sqrt_length_eq_zero_iff {k : ℕ} (v : Fin m → ℝ) (w : Fin k → ℝ) :
    √(length v * length v + length w * length w) = 0 ↔ v = 0 ∧ w = 0 := by
  have hv := mul_self_nonneg (length v)
  have hw := mul_self_nonneg (length w)
  rw [Real.sqrt_eq_zero (add_nonneg hv hw), add_eq_zero_iff_of_nonneg hv hw, mul_self_eq_zero,
    mul_self_eq_zero, length_eq_zero, length_eq_zero]

theorem dualResidual_eq_zero_iff :
    P.dualResidual y = 0 ↔ P.costViolation y = 0 ∧ P.signViolation y = 0 :=
  sqrt_length_eq_zero_iff _ _

theorem primalResidual_eq_zero_iff :
    P.primalResidual x = 0 ↔ P.rowViolation x = 0 ∧ P.boundViolation x = 0 :=
  sqrt_length_eq_zero_iff _ _

/-- Without violations, the dual objective is no more than the cost. -/
theorem dualObjective_le_primalObjective (hP : P.Bounded) (hx : P.primalResidual x = 0)
    (hy : P.dualResidual y = 0) : P.dualObjective y ≤ P.primalObjective x := by
  obtain ⟨hrow, hbound⟩ := primalResidual_eq_zero_iff.1 hx
  obtain ⟨hcost, hsign⟩ := dualResidual_eq_zero_iff.1 hy
  have hsum : 0 ≤ P.excess x ⬝ᵥ y :=
    Finset.sum_nonneg fun i _ => excess_mul_nonneg hrow hsign i
  calc P.dualObjective y
      ≤ P.lagrangian y x :=
        dualObjective_le_lagrangian hcost ((boundViolation_eq_zero_iff hP).1 hbound)
    _ = P.primalObjective x - P.excess x ⬝ᵥ y := by
        rw [lagrangian, dotProduct_comm y]
        rfl
    _ ≤ P.primalObjective x := sub_le_self _ hsum

theorem costViolation_blend : blend.costViolation ![1, 2] = 0 := by
  funext j
  rw [costViolation, reducedCost_blend, lower_blend, upper_blend]
  fin_cases j <;> norm_num [unabsorbed]

theorem dualObjective_blend : blend.dualObjective ![1, 2] = -3 / 2 := by
  rw [dualObjective, reducedCost_blend, lower_blend, upper_blend, rhs_blend]
  norm_num [absorbed, Fin.sum_univ_two, Extended.toReal]

end Program

/-! ### Scaled problems -/

namespace Scaled

variable {s : Scaled Extended} {P : Program m n} {r : Fin m → ℝ} {v : Fin n → ℝ}

namespace Scales

/-- Residuals and objectives do not depend on the displacement. -/
theorem record_evaluate (h : s.Scales P r v) (x : Fin n → ℝ) (y : Fin m → ℝ)
    (move : Iterate Extended) (iteration : ℕ) (passes elapsed : Float) :
    ∃ primalMove dualMove,
      s.evaluate ⟨Vec.real (v * x), Vec.real (r * y)⟩ move iteration passes elapsed =
        { P.record x 0 y 0 iteration passes elapsed with primalMove, dualMove } := by
  rw [← h.evaluate]
  exact ⟨_, _, rfl⟩

end Scales

/-- A problem as it is, or a balanced one, is its program with its lines scaled. -/
theorem exists_scales {p : Problem Extended} (hp : p.IsFinite)
    (hs : s = identity p ∨ ∃ means largests least, s = balanced p means largests (.real least)) :
    ∃ r v, s.Scales p.program r v := by
  rcases hs with rfl | ⟨means, largests, least, rfl⟩
  · exact ⟨1, 1, scales_identity hp⟩
  · exact exists_scales_balanced hp means largests least

/-- An iterate of real numbers is unscaled to multipliers for the given problem. If those of the
    inequalities are not negative, then its record has no dual residual exactly if the Lagrangian
    is bounded below on the points within their bounds, and its dual objective is then the least
    value of it. Without residuals, the dual objective is no more than the cost. -/
theorem isLeast_dualObjective {p : Problem Extended} (hp : p.IsFinite) (hacc : p.Accepted)
    (hl : .top ∉ p.lower) (hu : .bot ∉ p.upper)
    (hs : s = identity p ∨ ∃ means largests least, s = balanced p means largests (.real least))
    (x : Fin p.cols → ℝ) (y : Fin p.rows → ℝ) (move : Iterate Extended) (iteration : ℕ)
    (passes elapsed : Float) {record : Record Extended}
    (hrecord : record = s.evaluate ⟨Vec.real x, Vec.real y⟩ move iteration passes elapsed) :
    ∃ y₀ : Fin p.rows → ℝ, s.unscaleDual (Vec.real y) = Vec.real y₀ ∧
      (y₀ ∈ p.program.multipliers →
        p.program.box.Nonempty ∧
        (record.dualResidual = 0 ↔ BddBelow (p.program.lagrangian y₀ '' p.program.box)) ∧
        (record.dualResidual = 0 → ∃ d, record.dualObjective = .real d ∧
          IsLeast (p.program.lagrangian y₀ '' p.program.box) d)) ∧
      (record.primalResidual = 0 → record.dualResidual = 0 →
        record.dualObjective ≤ record.primalObjective) := by
  obtain ⟨r, v, h⟩ := exists_scales hp hs
  have hP := hacc.bounded hl hu
  obtain ⟨x, y, rfl, rfl⟩ := h.exists_unscaled x y
  obtain ⟨_, _, heq⟩ := h.record_evaluate x y move iteration passes elapsed
  have hprimal : record.primalResidual = 0 ↔ p.program.primalResidual x = 0 := by
    rw [hrecord, heq, zero_eq]
    exact Extended.real_injective.eq_iff
  have hdual : record.dualResidual = 0 ↔ p.program.dualResidual y = 0 := by
    rw [hrecord, heq, zero_eq]
    exact Extended.real_injective.eq_iff
  have hobjective : record.dualObjective = .real (p.program.dualObjective y) := by
    rw [hrecord, heq]
    rfl
  refine ⟨y, h.unscaleDual y, fun hy => ?_, fun hx hy => ?_⟩
  · have hsign : p.program.signViolation y = 0 :=
      Program.signViolation_eq_zero_iff.2 (Program.mem_multipliers.1 hy)
    rw [hdual, Program.dualResidual_eq_zero_iff, and_iff_left hsign]
    exact ⟨hP.nonempty_box, Program.costViolation_eq_zero_iff hP, fun hcost =>
      ⟨_, hobjective, Program.isLeast_lagrangian hP hcost⟩⟩
  · rw [hobjective, hrecord, heq]
    exact real_le_real.2
      (Program.dualObjective_le_primalObjective hP (hprimal.1 hx) (hdual.1 hy))

/-- With the multipliers one and two, the small program has the reduced costs `2` and `-1/2`. Its
    lower bound absorbs the one, and its upper bound the other. -/
theorem exists_isLeast_blend :
    ∃ x y : Fin 2 → ℝ,
      ((balanced .blend 10 4 (.real 1)).evaluate ⟨Vec.real x, Vec.real y⟩ (.zeros 2 2)
        0 0 0).dualObjective = .real (-3 / 2) ∧
      IsLeast (Program.blend.lagrangian ![1, 2] '' Program.blend.box) (-3 / 2) := by
  obtain ⟨hacc, hl, hu⟩ := Problem.accepted_blend
  obtain ⟨r, v, h⟩ : ∃ r v : Fin 2 → ℝ, (balanced .blend 10 4 (.real 1)).Scales .blend r v :=
    exists_scales_balanced Problem.isFinite_blend 10 4 1
  obtain ⟨y, hy, hmain, -⟩ := isLeast_dualObjective Problem.isFinite_blend hacc hl hu
    (.inr ⟨10, 4, 1, rfl⟩) (v * ![0, 1]) (r * ![1, 2]) (.zeros 2 2) 0 0 0 rfl
  obtain rfl : y = ![1, 2] := Vec.real_injective (hy.symm.trans (h.unscaleDual _))
  have hsigns : ![1, 2] ∈ Program.blend.multipliers := fun i _ => by fin_cases i <;> norm_num
  have hresidual : Program.blend.dualResidual ![1, 2] = 0 :=
    Program.dualResidual_eq_zero_iff.2 ⟨Program.costViolation_blend,
      Program.signViolation_eq_zero_iff.2 (Program.mem_multipliers.1 hsigns)⟩
  obtain ⟨_, _, heq⟩ := h.record_evaluate ![0, 1] ![1, 2] (.zeros 2 2) 0 0 0
  obtain ⟨d, hd, hleast⟩ := (hmain hsigns).2.2
    ((congrArg Record.dualResidual heq).trans (congrArg Extended.real hresidual))
  obtain rfl : d = -3 / 2 := Extended.real_injective
    ((hd.symm.trans (congrArg Record.dualObjective heq)).trans
      (congrArg Extended.real Program.dualObjective_blend))
  exact ⟨_, _, hd, hleast⟩

end Scaled

end HybridGradient
