import HybridGradient.Proofs.Certificate
import HybridGradient.Proofs.RealStep

/-!
# Records do not depend on the scaling

In exact arithmetic, what is recorded of an iterate of a balanced problem is what would
be recorded of the iterate in the space of the given problem. This holds for every
pattern of bounds and for whatever factors the passes of balancing come to.

* `Run.record_eq`, `Run.error_record`: the records and the errors of a run whose iterates are
  real numbers;
* `Scaled.evaluate_balanced`: the records of a balanced problem at any images, and the
  last record of a run.
-/

namespace HybridGradient

open Extended Matrix

variable {m n : ℕ}

/-- The components of an iterate are real numbers. -/
structure Iterate.IsReal (z : Iterate Extended) : Prop where
  primal : ∀ a ∈ z.primal, Scalar.isFinite a = true
  dual : ∀ a ∈ z.dual, Scalar.isFinite a = true

theorem Vec.exists_eq_real {v : Vec Extended} (hs : v.size = n)
    (h : ∀ a ∈ v, Scalar.isFinite a = true) : ∃ x : Fin n → ℝ, v = real x :=
  ⟨fun j => v[j.cast hs.symm].toReal,
    eq_real hs fun _ => eq_real_toReal (h _ (Array.getElem_mem _))⟩

theorem Iterate.isReal_real (z : Point m n) : (real z).IsReal where
  primal := by simp [real, Vec.real]
  dual := by simp [real, Vec.real]

theorem Iterate.displacement_real (x x' : Fin n → ℝ) (y y' : Fin m → ℝ) :
    displacement ⟨Vec.real x, Vec.real y⟩ ⟨Vec.real x', Vec.real y'⟩ =
      ⟨Vec.real (x' - x), Vec.real (y' - y)⟩ := by
  rw [displacement, one_eq, neg_real, Vec.add_real, Vec.add_real, neg_one_smul, neg_one_smul,
    ← sub_eq_add_neg, ← sub_eq_add_neg]

namespace Scaled.Scales

variable {s : Scaled Extended} {P : Program m n} {r : Fin m → ℝ} {v : Fin n → ℝ}

/-- An iterate of real numbers is the image of a point and multipliers. -/
theorem exists_image (h : s.Scales P r v) {z : Iterate Extended} (hz : z.IsReal)
    (hfits : z.Fits m n) : ∃ x y, z = ⟨Vec.real (v * x), Vec.real (r * y)⟩ := by
  obtain ⟨x, hx⟩ := Vec.exists_eq_real hfits.primal hz.primal
  obtain ⟨y, hy⟩ := Vec.exists_eq_real hfits.dual hz.dual
  obtain ⟨x, y, rfl, rfl⟩ := h.exists_unscaled x y
  obtain ⟨zx, zy⟩ := z
  exact ⟨x, y, congrArg₂ _ hx hy⟩

end Scaled.Scales

/-- What a run records of an iterate is what is to be recorded of it in the space of the
    given problem. -/
theorem Run.record_eq (run : Run Extended) {p : Problem Extended} (hp : p.IsFinite)
    {r : Fin p.rows → ℝ} {v : Fin p.cols → ℝ} (hs : run.scaled.Scales p.program r v)
    (hrows : run.scaled.problem.rows = p.rows) (hcols : run.scaled.problem.cols = p.cols)
    {z : Iterate Extended} (hz : z.Fits p.rows p.cols) (k : ℕ)
    (hreal : ∀ i ≤ k, (run.iterate z i).IsReal) :
    run.record z k = (Scaled.identity p).evaluate (run.original z k) (run.originalMove z k) k
      (work k) (run.clock k) := by
  -- Each iterate is the image of a point and multipliers, which it is unscaled to.
  have hfits (i : ℕ) : (run.iterate z i).Fits p.rows p.cols := by
    rw [← hrows, ← hcols] at hz ⊢
    exact fits_iterate hz i
  have himage (i : ℕ) (hi : i ≤ k) := hs.exists_image (hreal i hi) (hfits i)
  choose! x y hxy using himage
  have horiginal (i : ℕ) (hi : i ≤ k) :
      run.original z i = ⟨Vec.real (x i), Vec.real (y i)⟩ := by
    rw [original, hxy i hi, hs.unscalePrimal, hs.unscaleDual]
  -- The displacements correspond to one another, as scaling is linear.
  have hmove : ∃ dx dy, run.move z k = ⟨Vec.real (v * dx), Vec.real (r * dy)⟩ ∧
      run.originalMove z k = ⟨Vec.real dx, Vec.real dy⟩ := by
    cases k with
    | zero =>
      refine ⟨0, 0, ?_, ?_⟩
      · rw [move, hrows, hcols, Iterate.zeros, Vec.zeros_eq, Vec.zeros_eq, mul_zero, mul_zero]
      · rw [originalMove, hrows, hcols, Iterate.zeros, Vec.zeros_eq, Vec.zeros_eq]
    | succ k =>
      refine ⟨x (k + 1) - x k, y (k + 1) - y k, ?_, ?_⟩
      · rw [move, hxy k (Nat.le_succ k), hxy (k + 1) le_rfl, Iterate.displacement_real, mul_sub,
          mul_sub]
      · rw [originalMove, horiginal k (Nat.le_succ k), horiginal (k + 1) le_rfl,
          Iterate.displacement_real]
  obtain ⟨dx, dy, hscaled, hunscaled⟩ := hmove
  -- Both records are the one of the program.
  have hone := (Scaled.scales_identity hp).evaluate (x k) dx (y k) dy k (work k) (run.clock k)
  rw [one_mul, one_mul, one_mul, one_mul] at hone
  rw [record, hxy k le_rfl, hscaled, hs.evaluate, horiginal k le_rfl, hunscaled, hone]

/-- The errors of a run are those of its iterates, with their factors taken away. -/
theorem Run.error_record {run : Run Extended} {P : Program m n} {r : Fin m → ℝ} {v : Fin n → ℝ}
    (h : run.scaled.Scales P r v) (hP : P.Bounded) {t : ℝ} (ht : run.stepSize = .real t)
    (z : Point m n) (i : ℕ) : (run.record (.real z) i).error =
      .real (P.error ((((P.scaled r v).step t)^[i] z).1 / v)
        ((((P.scaled r v).step t)^[i] z).2 / r)) := by
  set w := ((P.scaled r v).step t)^[i] z with hw
  have hiterate : run.iterate (.real z) i =
      ⟨Vec.real (v * (w.1 / v)), Vec.real (r * (w.2 / r))⟩ := by
    rw [run.iterate_real h.poses (hP.scaled r h.variable_pos) ht, ← hw, mul_comm v, mul_comm r,
      div_mul_cancel_factors h.variable_pos, div_mul_cancel_factors h.constraint_pos]
    rfl
  rw [record, hiterate, h.error_evaluate]

/-- The record of the images of any point, multipliers and displacement is the one that
    the problem itself gives, whatever the numbers of passes and the least factor. So, in
    a run whose iterates are real numbers, the last record is the one that the problem
    itself gives for the returned solution. -/
theorem Scaled.evaluate_balanced {p : Problem Extended} (hp : p.IsFinite) :
    (∀ (means largests : ℕ) (least : ℝ) (s : Scaled Extended),
      s = balanced p means largests (.real least) →
      ∀ (x dx : Fin p.cols → ℝ) (y dy : Fin p.rows → ℝ) (i : ℕ) (passes elapsed : Float),
        s.evaluate ⟨s.scalePrimal (Vec.real x), s.scaleDual (Vec.real y)⟩
            ⟨s.scalePrimal (Vec.real dx), s.scaleDual (Vec.real dy)⟩ i passes elapsed =
          (identity p).evaluate ⟨Vec.real x, Vec.real y⟩ ⟨Vec.real dx, Vec.real dy⟩ i passes
            elapsed) ∧
    ∀ (clock : ℕ → Float) (par : Params Extended) (least : ℝ) (k : ℕ),
      par.leastFactor = .real least → par.error? p.rows p.cols = none →
      IsLeast {i | (par.run clock p).Stops (par.start p) i} k →
      (∀ i ≤ k, ((par.run clock p).iterate (par.start p) i).IsReal) →
      ∃ sol events, solve? clock p par = .ok ⟨.ok sol, events⟩ ∧
        ⟨sol.primal, sol.dual⟩ = (par.run clock p).original (par.start p) k ∧
        sol.table.last? = some ((identity p).evaluate ⟨sol.primal, sol.dual⟩
          ((par.run clock p).originalMove (par.start p) k) k (Run.work k) (clock k)) := by
  constructor
  · rintro means largests least s rfl x dx y dy i passes elapsed
    obtain ⟨r, v, hs⟩ := exists_scales_balanced hp means largests least
    have hone := (scales_identity hp).evaluate x dx y dy i passes elapsed
    rw [one_mul, one_mul, one_mul, one_mul] at hone
    rw [hs.scalePrimal, hs.scalePrimal, hs.scaleDual, hs.scaleDual, hs.evaluate, hone]
  · intro clock par least k hleast hpar hk hreal
    obtain ⟨r, v, hs⟩ := par.exists_scales hp hleast
    obtain ⟨k', last, hk', hlast, -, events, hsolve⟩ := solve?_eq clock hpar
    obtain rfl : k' = k := hk'.unique hk
    have hstart : (par.start p).Fits p.rows p.cols :=
      (Params.accepted_of_error?_eq_none hpar).fits_iterate clock 0
    refine ⟨_, events, hsolve, ?_, ?_⟩
    · rw [Run.original, ← hlast.iterate]
      rfl
    · dsimp only
      rw [hlast.last? hk'.1, (par.run clock p).record_eq hp hs (par.rows_run clock p)
        (par.cols_run clock p) hstart k' hreal, hlast.iterate]
      rfl

/-! ### A step of the small program -/

/-- Where the first variable is zero and the second is not positive, the equation is missed. -/
theorem Program.not_error_le_blend {x : Fin 2 → ℝ} (h0 : x 0 = 0) (h1 : x 1 ≤ 0)
    (y : Fin 2 → ℝ) : ¬ blend.error x y ≤ 1 / 2 := by
  intro hle
  have hmissed : |blend.excess x 0| ≤ 1 / 2 := abs_excess_le (le_of_error_le hle).1 one_pos
  rw [excess_blend, h0] at hmissed
  have hlower := (abs_le.1 hmissed).1
  norm_num at hlower
  linarith

/-- However the program is scaled, a step from zero leaves the first variable at its lower bound
    and takes the second away from its upper one. -/
theorem Program.stepPrimal_scaled_blend (r : Fin 2 → ℝ) {v : Fin 2 → ℝ} (hv : ∀ j, 0 < v j) :
    (blend.scaled r v).stepPrimal (1 / 2) 0 = ![0, -(1 / 2 * (1 / v 1))] := by
  have hreduced : (blend.scaled r v).reducedCost 0 = ![5, 1] / v := by
    rw [reducedCost, Matrix.mulVec_zero, sub_zero, scaled, cost_blend]
  have hfirst := hv 0
  have hsecond := hv 1
  have hbot (a : ℝ) : ¬ real a < bot := id
  have hnot : ¬ v 1 < -(2⁻¹ * (v 1)⁻¹) :=
    not_lt.2 ((neg_nonpos.2 (by positivity)).trans hsecond.le)
  funext j
  change nearest ((blend.lower j).stretch (v j)) ((blend.upper j).stretch (v j))
    (0 - 1 / 2 * (blend.scaled r v).reducedCost 0 j) = _
  rw [hreduced, lower_blend, upper_blend]
  fin_cases j
  · simp [nearest, Scalar.clamp, stretch, hfirst]
  · simp [nearest, Scalar.clamp, stretch, hbot, hnot]

/-- Parameters for one step of a balanced problem. -/
noncomputable def Params.oneStep : Params Extended :=
  { (default : Params Extended) with
    stepSize := some (.real (1 / 2)), tolerance := .real (1 / 2), leastFactor := .real (1 / 2)
    recordEvery := 1, iterationLimit := 1 }

namespace Params

theorem accepted_oneStep : oneStep.Accepted 2 2 :=
  ⟨by decide, by decide, zero_lt_real.2 one_half_pos,
    fun _ ht => Option.some.inj ht ▸ zero_lt_real.2 one_half_pos, nofun, nofun⟩

theorem start_oneStep : oneStep.start .blend = .real (0 : Point 2 2) :=
  congrArg₂ Iterate.mk (Vec.zeros_eq 2) (Vec.zeros_eq 2)

theorem exists_scales_oneStep (clock : ℕ → Float) :
    ∃ r v : Fin 2 → ℝ, (oneStep.run clock .blend).scaled.Scales .blend r v :=
  oneStep.exists_scales Problem.isFinite_blend rfl

/-- Neither the start nor the iterate after the step is within the tolerance. -/
theorem not_error_le_oneStep (clock : ℕ → Float) {i : ℕ} (hi : i ≤ 1) :
    ¬ ((oneStep.run clock .blend).record (oneStep.start .blend) i).error ≤ oneStep.tolerance := by
  obtain ⟨r, v, h⟩ := exists_scales_oneStep clock
  obtain ⟨hacc, hl, hu⟩ := Problem.accepted_blend
  have hprimal : (((Program.blend.scaled r v).step (1 / 2))^[i] 0).1 0 = 0 ∧
      (((Program.blend.scaled r v).step (1 / 2))^[i] 0).1 1 ≤ 0 := by
    rcases Nat.le_one_iff_eq_zero_or_eq_one.1 hi with rfl | rfl
    · exact ⟨rfl, le_rfl⟩
    · have hpos := h.variable_pos 1
      rw [Function.iterate_one, Program.step, Program.stepPrimal_scaled_blend r h.variable_pos]
      exact ⟨rfl, neg_nonpos.2 (by positivity)⟩
  rw [start_oneStep, Run.error_record h (hacc.bounded hl hu) rfl 0 i]
  refine fun hle => Program.not_error_le_blend ?_ ?_ _ (real_le_real.1 hle)
  · rw [Pi.div_apply, hprimal.1, zero_div]
  · exact div_nonpos_of_nonpos_of_nonneg hprimal.2 (h.variable_pos 1).le

end Params

/-- A balanced run on the small program that takes a step. -/
theorem exists_last_record_blend :
    ∃ par : Params Extended, par.rescale = true ∧ par.iterationLimit = 1 ∧
      ∃ sol events, solve? (fun _ => 0) .blend par = .ok ⟨.ok sol, events⟩ ∧
        sol.table.last? = some ((Scaled.identity .blend).evaluate ⟨sol.primal, sol.dual⟩
          ((par.run (fun _ => 0) .blend).originalMove (par.start .blend) 1) 1 (Run.work 1) 0) := by
  let run := Params.oneStep.run (fun _ => 0) .blend
  have hleast : IsLeast {i | run.Stops (Params.oneStep.start .blend) i} 1 := by
    refine ⟨.inl rfl, fun i hi => ?_⟩
    rcases hi with hlimit | ⟨-, hconverged⟩
    · exact hlimit.ge
    · exact not_lt.1 fun hlt => Params.not_error_le_oneStep _ hlt.le hconverged
  have hreal : ∀ i ≤ 1, (run.iterate (Params.oneStep.start .blend) i).IsReal := by
    intro i _
    obtain ⟨r, v, h⟩ := Params.exists_scales_oneStep fun _ => 0
    obtain ⟨hacc, hl, hu⟩ := Problem.accepted_blend
    rw [Params.start_oneStep,
      Run.iterate_real h.poses ((hacc.bounded hl hu).scaled r h.variable_pos) rfl 0 i]
    exact Iterate.isReal_real _
  obtain ⟨sol, events, hsolve, -, hlast⟩ :=
    (Scaled.evaluate_balanced Problem.isFinite_blend).2 (fun _ => 0) .oneStep (1 / 2) 1 rfl
      Params.accepted_oneStep.error?_eq_none hleast hreal
  exact ⟨.oneStep, rfl, rfl, sol, events, hsolve, hlast⟩

end HybridGradient
