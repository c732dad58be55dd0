import HybridGradient.Proofs.Descent
import HybridGradient.Proofs.Records
import Mathlib.Topology.MetricSpace.Sequences
import Mathlib.Topology.Order.MonotoneConvergence

/-!
# Convergence

If a program has a solution at all, the step size is small enough, and arithmetic is exact,
the iterates converge to a solution from any start. They stay near the given solution, so
they accumulate somewhere, and as their displacements vanish this is a point that the step
leaves where it is: a solution again, to which the energy descends as well. The error depends
continuously on the iterate, so it vanishes, and each tolerance is met after finitely many
steps.

* `Program.exists_tendsto_iterate`: the iterates of a program converge to a fixed point;
* `Program.continuous_error`: the error is continuous;
* `Run.EndsAt`: the iterate with which a run ends whose counts are unbounded;
* `solve?_converges`: the errors in a run on a problem that has a solution, and how it ends.
-/

namespace HybridGradient

open Extended Filter Matrix Topology

open scoped Matrix.Norms.L2Operator

variable {m n : ℕ}

/-! ### Continuity of the step -/

theorem Extended.continuous_nearest {l u : Extended} (h : ∃ s, Between l u s) :
    Continuous (nearest l u) :=
  (LipschitzWith.mk_one fun t t' => abs_nearest_sub_le h t t').continuous

namespace Program

variable {P : Program m n}

theorem continuous_reducedCost (P : Program m n) : Continuous P.reducedCost :=
  continuous_const.sub (continuous_const.matrix_mulVec continuous_id)

theorem continuous_excess (P : Program m n) : Continuous P.excess :=
  (continuous_const.matrix_mulVec continuous_id).sub continuous_const

theorem continuous_stepPrimal (hP : P.Bounded) (t : ℝ) : Continuous (P.stepPrimal t) := by
  refine continuous_pi fun j => (continuous_nearest (hP j)).comp ?_
  have hcost : Continuous fun z : Point m n => P.reducedCost z.2 j :=
    (continuous_apply j).comp (P.continuous_reducedCost.comp continuous_snd)
  fun_prop

theorem continuous_stepDual (hP : P.Bounded) (t : ℝ) : Continuous (P.stepDual t) := by
  refine continuous_pi fun i => (continuous_nearest (P.exists_between_signBound i)).comp ?_
  have hextra : Continuous fun z : Point m n => (2 : ℝ) • P.stepPrimal t z - z.1 :=
    ((continuous_stepPrimal hP t).const_smul (2 : ℝ)).sub continuous_fst
  have hexcess : Continuous fun z : Point m n =>
      P.excess ((2 : ℝ) • P.stepPrimal t z - z.1) i :=
    (continuous_apply i).comp (P.continuous_excess.comp hextra)
  fun_prop

theorem continuous_step (hP : P.Bounded) (t : ℝ) : Continuous (P.step t) :=
  (continuous_stepPrimal hP t).prodMk (continuous_stepDual hP t)

end Program

/-! ### The energy as a metric -/

theorem continuous_energy (M : Matrix (Fin m) (Fin n) ℝ) (t : ℝ) : Continuous (energy M t) := by
  have hprimal : Continuous fun d : Point m n => d.1 ⬝ᵥ d.1 :=
    continuous_fst.dotProduct continuous_fst
  have hdual : Continuous fun d : Point m n => d.2 ⬝ᵥ d.2 :=
    continuous_snd.dotProduct continuous_snd
  have hmixed : Continuous fun d : Point m n => (M *ᵥ d.1) ⬝ᵥ d.2 :=
    (continuous_const.matrix_mulVec continuous_fst).dotProduct continuous_snd
  exact (hprimal.add (hmixed.const_mul _)).add hdual

/-- No component is longer than the whole. -/
theorem norm_sq_le (d : Point m n) : ‖d‖ ^ 2 ≤ d.1 ⬝ᵥ d.1 + d.2 ⬝ᵥ d.2 := by
  have hlength (k : ℕ) (x : Fin k → ℝ) : ‖x‖ ≤ length x :=
    (pi_norm_le_iff_of_nonneg (length_nonneg x)).2 fun j => abs_le_length x j
  have hsq (k : ℕ) (x : Fin k → ℝ) : ‖x‖ ^ 2 ≤ x ⬝ᵥ x := by
    rw [← length_mul_self, ← sq]
    exact pow_le_pow_left₀ (norm_nonneg x) (hlength k x) 2
  rcases max_choice ‖d.1‖ ‖d.2‖ with hmax | hmax
  · rw [Prod.norm_def, hmax]
    exact (hsq n d.1).trans (le_add_of_nonneg_right (dotProduct_self_nonneg _))
  · rw [Prod.norm_def, hmax]
    exact (hsq m d.2).trans (le_add_of_nonneg_left (dotProduct_self_nonneg _))

section

variable {M : Matrix (Fin m) (Fin n) ℝ} {t : ℝ} (ht : 0 ≤ t) (hM : t * ‖M‖ < 1)

include ht hM

theorem norm_sq_le_energy (d : Point m n) : ‖d‖ ^ 2 ≤ energy M t d / (1 - t * ‖M‖) := by
  rw [le_div_iff₀' (sub_pos.2 hM)]
  exact (mul_le_mul_of_nonneg_left (norm_sq_le d) (sub_nonneg.2 hM.le)).trans (le_energy M ht d)

/-- Displacements whose energies vanish vanish themselves. -/
theorem tendsto_zero_of_energy {d : ℕ → Point m n}
    (h : Tendsto (fun k => energy M t (d k)) atTop (𝓝 0)) : Tendsto d atTop (𝓝 0) := by
  have hsq : Tendsto (fun k => ‖d k‖ ^ 2) atTop (𝓝 0) := by
    refine squeeze_zero (fun k => sq_nonneg _) (fun k => norm_sq_le_energy ht hM (d k)) ?_
    simpa using h.div_const (1 - t * ‖M‖)
  rw [tendsto_zero_iff_norm_tendsto_zero]
  simpa [Real.sqrt_sq (norm_nonneg _)] using hsq.sqrt

end

/-! ### The limit of the iterates -/

namespace Program

variable {P : Program m n} {t : ℝ}

/-- Iterates on the way to a fixed point do not leave a ball around it. -/
theorem isBounded_iterates (hP : P.Bounded) (ht : 0 ≤ t) (hM : t * ‖P.coeff‖ < 1)
    {zs : Point m n} (hzs : P.step t zs = zs) (z : Point m n) :
    Bornology.IsBounded (Set.range fun k => (P.step t)^[k] z) := by
  rw [Metric.isBounded_iff_subset_closedBall zs]
  refine ⟨√(energy P.coeff t (z - zs) / (1 - t * ‖P.coeff‖)), ?_⟩
  rintro _ ⟨k, rfl⟩
  have hdescent := energy_iterate_antitone hP ht hM.le hzs z (Nat.zero_le k)
  rw [mem_closedBall_iff_norm]
  refine Real.le_sqrt_of_sq_le ((norm_sq_le_energy ht hM _).trans ?_)
  exact div_le_div_of_nonneg_right hdescent (sub_nonneg.2 hM.le)

/-- The displacements vanish, as their energies have a finite sum. -/
theorem tendsto_displacement (hP : P.Bounded) (ht : 0 ≤ t) (hM : t * ‖P.coeff‖ < 1)
    {zs : Point m n} (hzs : P.step t zs = zs) (z : Point m n) :
    Tendsto (fun k => (P.step t)^[k + 1] z - (P.step t)^[k] z) atTop (𝓝 0) := by
  refine tendsto_zero_of_energy ht hM (Summable.tendsto_atTop_zero ?_)
  refine summable_of_sum_range_le (c := energy P.coeff t (z - zs))
    (fun k => energy_nonneg ht hM.le _) fun K => ?_
  exact le_of_add_le_of_nonneg_left (sum_energy_add_le hP hzs z K) (energy_nonneg ht hM.le _)

/-- If the step has a fixed point, the iterates converge to one from everywhere. -/
theorem exists_tendsto_iterate (hP : P.Bounded) (ht : 0 ≤ t) (hM : t * ‖P.coeff‖ < 1)
    {zs : Point m n} (hzs : P.step t zs = zs) (z : Point m n) :
    ∃ w, P.step t w = w ∧ Tendsto (fun k => (P.step t)^[k] z) atTop (𝓝 w) := by
  obtain ⟨w, -, φ, hφ, hw⟩ := tendsto_subseq_of_bounded (isBounded_iterates hP ht hM hzs z)
    fun k => Set.mem_range_self k
  -- Where the iterates accumulate, they do not move.
  have hfixed : P.step t w = w := by
    have hnext : Tendsto (fun k => P.step t ((P.step t)^[φ k] z)) atTop (𝓝 (P.step t w)) :=
      (continuous_step hP t).continuousAt.tendsto.comp hw
    have hmove := (tendsto_displacement hP ht hM hzs z).comp hφ.tendsto_atTop
    refine tendsto_nhds_unique hnext ?_
    simpa [Function.comp_def, Function.iterate_succ_apply'] using hmove.add hw
  -- The energy descends to this point as well, and comes to zero along a subsequence.
  refine ⟨w, hfixed, ?_⟩
  have hsubseq : Tendsto (fun k => energy P.coeff t ((P.step t)^[φ k] z - w)) atTop (𝓝 0) := by
    have hzero : energy P.coeff t (w - w) = 0 := by simp [energy]
    rw [← hzero]
    exact (continuous_energy P.coeff t).continuousAt.tendsto.comp (hw.sub_const w)
  have henergy := (tendsto_iff_tendsto_subseq_of_antitone
    (energy_iterate_antitone hP ht hM.le hfixed z) hφ.tendsto_atTop).2 hsubseq
  exact tendsto_sub_nhds_zero_iff.1 (tendsto_zero_of_energy ht hM henergy)

/-! ### Continuity of the error -/

theorem continuous_below (l : Extended) : Continuous (below l) := by
  cases l with
  | real l => exact (continuous_const.sub continuous_id).max continuous_const
  | top | bot | undefined => exact continuous_const

theorem continuous_above (u : Extended) : Continuous (above u) := by
  cases u with
  | real u => exact (continuous_id.sub continuous_const).max continuous_const
  | top | bot | undefined => exact continuous_const

theorem continuous_unabsorbed (l u : Extended) : Continuous (unabsorbed l u) := by
  cases l <;> cases u <;> unfold unabsorbed <;> fun_prop

theorem continuous_absorbed (l u : Extended) : Continuous (absorbed l u) := by
  unfold absorbed
  fun_prop

theorem continuous_length : Continuous (length : (Fin n → ℝ) → ℝ) :=
  (continuous_id.dotProduct continuous_id).sqrt

variable (P)

theorem continuous_rowViolation : Continuous P.rowViolation := by
  refine continuous_pi fun i => ?_
  have hexcess : Continuous fun x => P.excess x i :=
    (continuous_apply i).comp P.continuous_excess
  unfold rowViolation
  split
  · exact hexcess
  · exact hexcess.neg.max continuous_const

theorem continuous_boundViolation : Continuous P.boundViolation :=
  continuous_pi fun j => ((continuous_below _).comp (continuous_apply j)).add
    ((continuous_above _).comp (continuous_apply j))

theorem continuous_costViolation : Continuous P.costViolation :=
  continuous_pi fun j => (continuous_unabsorbed _ _).comp
    ((continuous_apply j).comp P.continuous_reducedCost)

theorem continuous_signViolation : Continuous P.signViolation := by
  refine continuous_pi fun i => ?_
  unfold signViolation
  split
  · exact continuous_const
  · exact (continuous_apply i).neg.max continuous_const

theorem continuous_gap : Continuous fun z : Point m n => P.gap z.1 z.2 := by
  have hbounds (j : Fin n) : Continuous fun y =>
      absorbed (P.lower j) (P.upper j) (P.reducedCost y j) :=
    (continuous_absorbed _ _).comp ((continuous_apply j).comp P.continuous_reducedCost)
  have hdual : Continuous P.dualObjective :=
    (continuous_const.dotProduct continuous_id).add
      (continuous_finsetSum _ fun j _ => hbounds j)
  have hprimal : Continuous P.primalObjective := continuous_const.dotProduct continuous_id
  exact ((hprimal.comp continuous_fst).sub (hdual.comp continuous_snd)).abs

theorem continuous_error : Continuous fun z : Point m n => P.error z.1 z.2 := by
  have hrow := continuous_length.comp P.continuous_rowViolation
  have hbound := continuous_length.comp P.continuous_boundViolation
  have hcost := continuous_length.comp P.continuous_costViolation
  have hsign := continuous_length.comp P.continuous_signViolation
  have hprimal : Continuous P.primalResidual := ((hrow.mul hrow).add (hbound.mul hbound)).sqrt
  have hdual : Continuous P.dualResidual := ((hcost.mul hcost).add (hsign.mul hsign)).sqrt
  have hprimal' := hprimal.comp (continuous_fst : Continuous fun z : Point m n => z.1)
  have hdual' := hdual.comp (continuous_snd : Continuous fun z : Point m n => z.2)
  exact (((hprimal'.mul hprimal').add (hdual'.mul hdual')).add
    (P.continuous_gap.mul P.continuous_gap)).sqrt

end Program

/-! ### Runs -/

namespace Run

section

variable {α : Type} [Scalar α] {run : Run α} {z : Iterate α}

/-- A run whose counts are unbounded, which examines every so many iterates and takes no more
    steps than a limit, ends with the iterate after `k` steps. -/
def EndsAt (run : Run α) (z : Iterate α) (every limit k : ℕ) : Prop :=
  IsLeast {i | i = limit ∨ every ∣ i ∧ (run.record z i).error ≤ run.par.tolerance} k

theorem exists_endsAt (run : Run α) (z : Iterate α) (every limit : ℕ) :
    ∃ k, run.EndsAt z every limit k := by
  classical
  have hlimit : ∃ i, i = limit ∨ every ∣ i ∧ (run.record z i).error ≤ run.par.tolerance :=
    ⟨limit, .inl rfl⟩
  exact ⟨Nat.find hlimit, Nat.find_spec hlimit, fun _ => Nat.find_min' hlimit⟩

/-- A run ends as optimal if its last iterate is late enough for its error to be within the
    tolerance. -/
theorem EndsAt.statusAt {every limit k N : ℕ} (h : run.EndsAt z every limit k)
    (herror : ∀ i ≥ N, (run.record z i).error ≤ run.par.tolerance) (hN : N ≤ limit) :
    run.statusAt z k = .optimal := by
  rw [statusAt_eq_optimal_iff]
  rcases h.1 with rfl | ⟨-, hk⟩
  · exact herror k hN
  · exact hk

end

end Run

/-- The errors of the iterates of a scaled program vanish, if the program has a solution. -/
theorem Program.tendsto_error {P : Program m n} (hP : P.Bounded) {r : Fin m → ℝ}
    {v : Fin n → ℝ} (hr : ∀ i, 0 < r i) (hv : ∀ j, 0 < v j) {t : ℝ} (ht : 0 < t)
    (hnorm : t * ‖descale P.coeff r v‖ < 1) {x : Fin n → ℝ} {y : Fin m → ℝ}
    (hxy : P.error x y = 0) (z : Point m n) :
    Tendsto (fun i => P.error ((((P.scaled r v).step t)^[i] z).1 / v)
      ((((P.scaled r v).step t)^[i] z).2 / r)) atTop (𝓝 0) := by
  have hscaled := hP.scaled r hv
  have hfixed : (P.scaled r v).step t (v * x, r * y) = (v * x, r * y) := by
    rw [step_eq_iff hscaled ht, solves_scaled_iff hr hv, ← error_eq_zero_iff hP]
    exact hxy
  obtain ⟨w, hw, hlim⟩ := exists_tendsto_iterate hscaled ht.le hnorm hfixed z
  -- The limit is a solution as well, and the error is continuous there.
  have hzero : P.error (w.1 / v) (w.2 / r) = 0 := by
    rw [error_eq_zero_iff hP, ← solves_scaled_iff hr hv, mul_comm v, mul_comm r,
      div_mul_cancel_factors hv, div_mul_cancel_factors hr, ← step_eq_iff hscaled ht]
    exact hw
  have hunscale : Continuous fun z : Point m n => (z.1 / v, z.2 / r) :=
    (continuous_fst.div_const v).prodMk (continuous_snd.div_const r)
  rw [← hzero]
  exact (P.continuous_error.comp hunscale).continuousAt.tendsto.comp hlim

/-- Errors that vanish come to be within a positive tolerance. -/
theorem Extended.eventually_le {e : ℕ → ℝ} (he : Tendsto e atTop (𝓝 0)) {ε : Extended}
    (hε : 0 < ε) : ∃ N, ∀ i ≥ N, real (e i) ≤ ε := by
  cases ε with
  | real ε =>
    obtain ⟨N, hN⟩ := eventually_atTop.1 (he.eventually_lt_const (zero_lt_real.1 hε))
    exact ⟨N, fun i hi => real_le_real.2 (hN i hi).le⟩
  | top => exact ⟨0, fun i _ => real_le_top _⟩
  | bot | undefined => exact absurd hε id

/-- If the program has a solution, and the step and the norm are small enough, there is a number
    of steps from which on the errors of all runs are within a tolerance. They depend on nothing
    but the scaled problem, the step size and the start. -/
theorem Scaled.Scales.exists_error_le {s : Scaled Extended} {P : Program m n} {r : Fin m → ℝ}
    {v : Fin n → ℝ} (h : s.Scales P r v) (hP : P.Bounded) {t : ℝ} (ht : 0 < t)
    (hnorm : t * ‖descale P.coeff r v‖ < 1) {x : Fin n → ℝ} {y : Fin m → ℝ}
    (hxy : P.error x y = 0) (z : Point m n) {ε : Extended} (hε : 0 < ε) :
    ∃ N, ∀ run : Run Extended, run.scaled = s → run.stepSize = .real t →
      ∀ i ≥ N, (run.record (.real z) i).error ≤ ε := by
  obtain ⟨N, hN⟩ := Extended.eventually_le (Program.tendsto_error hP h.constraint_pos
    h.variable_pos ht hnorm hxy z) hε
  refine ⟨N, fun run hscaled hstep i hi => ?_⟩
  rw [Run.error_record (hscaled ▸ h) hP hstep]
  exact hN i hi

/-- An accepted run with finite starting vectors starts from real numbers. -/
theorem Params.start_eq_real {par : Params Extended} {p : Problem Extended}
    (hpar : par.Accepted p.rows p.cols) {P : Program p.rows p.cols} {r : Fin p.rows → ℝ}
    {v : Fin p.cols → ℝ} (hs : (par.scaled p).1.Scales P r v)
    (hprimal : ∀ x ∈ par.startPrimal, ∀ a ∈ x, Scalar.isFinite a = true)
    (hdual : ∀ y ∈ par.startDual, ∀ a ∈ y, Scalar.isFinite a = true) :
    ∃ z : Point p.rows p.cols, par.start p = .real z := by
  obtain ⟨x, hx⟩ : ∃ x : Fin p.cols → ℝ, (par.start p).primal = Vec.real x := by
    rw [start]
    cases hstart : par.startPrimal with
    | none => exact ⟨0, Vec.zeros_eq _⟩
    | some a =>
      obtain ⟨x, rfl⟩ := Vec.exists_eq_real (hpar.startPrimal a hstart) (hprimal a hstart)
      exact ⟨v * x, hs.scalePrimal x⟩
  obtain ⟨y, hy⟩ : ∃ y : Fin p.rows → ℝ, (par.start p).dual = Vec.real y := by
    rw [start]
    cases hstart : par.startDual with
    | none => exact ⟨0, Vec.zeros_eq _⟩
    | some b =>
      obtain ⟨y, rfl⟩ := Vec.exists_eq_real (hpar.startDual b hstart) (hdual b hstart)
      exact ⟨r * y, hs.scaleDual y⟩
  exact ⟨(x, y), congrArg₂ Iterate.mk hx hy⟩

/-- The error of a problem as it is, is that of its program. -/
theorem Scaled.error_evaluate_identity {p : Problem Extended} (hp : p.IsFinite)
    (x : Fin p.cols → ℝ) (y : Fin p.rows → ℝ) (move : Iterate Extended) (i : ℕ)
    (passes elapsed : Float) : ((identity p).evaluate ⟨Vec.real x, Vec.real y⟩ move i passes
      elapsed).error = .real (p.program.error x y) := by
  have hone := (scales_identity hp).error_evaluate x y move i passes elapsed
  rwa [one_mul, one_mul] at hone

/-- Let a problem have a solution, and let the product of the given step size and the norm of
    the scaled matrix be less than one. Then there is a number of steps from which on the
    errors are within the tolerance, so that each run ends as optimal whose limit is not
    less, be its counts unbounded or machine words. -/
theorem solve?_converges {p : Problem Extended} (hp : p.IsFinite) (hacc : p.Accepted)
    (hl : .top ∉ p.lower) (hu : .bot ∉ p.upper)
    (hsol : ∃ (x : Fin p.cols → ℝ) (y : Fin p.rows → ℝ), ((Scaled.identity p).evaluate
      ⟨Vec.real x, Vec.real y⟩ (.zeros p.rows p.cols) 0 0 0).error = 0)
    {par : Params Extended} (hpar : par.error? p.rows p.cols = none) {least : ℝ}
    (hleast : par.leastFactor = .real least)
    (hprimal : ∀ x ∈ par.startPrimal, ∀ a ∈ x, Scalar.isFinite a = true)
    (hdual : ∀ y ∈ par.startDual, ∀ a ∈ y, Scalar.isFinite a = true) {t : ℝ}
    (ht : par.stepSize = some (.real t)) {A : Matrix (Fin p.rows) (Fin p.cols) ℝ}
    (hA : (par.scaled p).1.problem.matrix.Denotes A) (hsmall : t ^ 2 * ‖A‖ ^ 2 < 1) :
    ∃ N : ℕ,
      (∀ clock, ∀ i ≥ N, ((par.run clock p).record (par.start p) i).error ≤ par.tolerance) ∧
      (∀ clock every limit, N ≤ limit →
        ∃ k, (par.run clock p).EndsAt (par.start p) every limit k ∧
          (par.run clock p).statusAt (par.start p) k = .optimal) ∧
      ∀ clock (every limit : UInt64), every ≠ 0 → N ≤ limit.toNat →
        ∃ sol events,
          solve? clock p { par with recordEvery := every, iterationLimit := limit } =
            .ok ⟨.ok sol, events⟩ ∧ sol.status = .optimal := by
  have hP := hacc.bounded hl hu
  have haccepted := Params.accepted_of_error?_eq_none hpar
  have hpos : 0 < t := zero_lt_real.1 (haccepted.stepSize _ ht)
  obtain ⟨x, y, hxy⟩ := hsol
  rw [Scaled.error_evaluate_identity hp, zero_eq, Extended.real_injective.eq_iff] at hxy
  obtain ⟨r, v, hs⟩ := par.exists_scales hp hleast
  obtain rfl : A = descale p.program.coeff r v := by
    ext i j
    rw [hA.apply, hs.matrix.apply]
  obtain ⟨z, hz⟩ := Params.start_eq_real haccepted hs hprimal hdual
  obtain ⟨N, herror⟩ := hs.exists_error_le hP hpos (mul_norm_lt_one hpos.le hsmall) hxy z
    haccepted.tolerance
  rw [← hz] at herror
  have hstep (clock : ℕ → Float) : (par.run clock p).stepSize = .real t := by
    rw [Params.run, Params.chooseStepSize, ht]
  refine ⟨N, fun clock => herror _ rfl (hstep clock), ?_, ?_⟩
  · intro clock every limit hlimit
    obtain ⟨k, hk⟩ := (par.run clock p).exists_endsAt (par.start p) every limit
    exact ⟨k, hk, hk.statusAt (herror _ rfl (hstep clock)) hlimit⟩
  · intro clock every limit hevery hlimit
    let par' : Params Extended := { par with recordEvery := every, iterationLimit := limit }
    have hacc' : par'.Accepted p.rows p.cols :=
      ⟨hevery, haccepted.printEvery, haccepted.tolerance, haccepted.stepSize,
        haccepted.startPrimal, haccepted.startDual⟩
    obtain ⟨k, last, hk, -, -, events, hsolve⟩ := solve?_eq clock hacc'.error?_eq_none
    have hends : (par'.run clock p).EndsAt (par'.start p) every.toNat limit.toNat k := hk
    exact ⟨_, events, hsolve, hends.statusAt (herror (par'.run clock p) rfl (hstep clock)) hlimit⟩

/-- On the small program, every run comes within a millionth of the conditions of optimality that
    is given enough steps. -/
theorem exists_converges_blend :
    ∃ par : Params Extended, par.stepSize = some (.real (1 / 5)) ∧
      par.tolerance = .real (1 / 10 ^ 6) ∧ ∃ N : ℕ,
        ∀ clock (every limit : UInt64), every ≠ 0 → N ≤ limit.toNat → ∃ sol events,
          solve? clock .blend { par with recordEvery := every, iterationLimit := limit } =
            .ok ⟨.ok sol, events⟩ ∧ sol.status = .optimal := by
  let par : Params Extended :=
    { (default : Params Extended) with
      stepSize := some (.real (1 / 5)), rescale := false, tolerance := .real (1 / 10 ^ 6)
      leastFactor := .real 1 }
  obtain ⟨hacc, hl, hu⟩ := Problem.accepted_blend
  have hpar : par.Accepted 2 2 :=
    ⟨by decide, by decide, zero_lt_real.2 (by positivity),
      fun t ht => Option.some.inj ht ▸ zero_lt_real.2 (by positivity), nofun, nofun⟩
  have hsol : ((Scaled.identity .blend).evaluate ⟨Vec.real ![0, 1], Vec.real ![9 / 8, 0]⟩
      (.zeros 2 2) 0 0 0).error = 0 := by
    refine (Scaled.error_evaluate_identity Problem.isFinite_blend _ _ _ 0 0 0).trans ?_
    exact congrArg Extended.real Program.error_blend
  obtain ⟨N, -, -, hN⟩ := solve?_converges Problem.isFinite_blend hacc hl hu ⟨_, _, hsol⟩
    hpar.error?_eq_none rfl nofun nofun rfl Problem.isFinite_blend.denotes
    Problem.fifth_norm_blend
  exact ⟨par, rfl, rfl, N, hN⟩

end HybridGradient
