import HybridGradient.Proofs.Balancing

/-!
# What an optimal run certifies

A run that ends as optimal has seen an error within its tolerance. In exact arithmetic
that error is the one of the given problem at the returned point and multipliers, and it
bounds everything that a solution could be wrong by: each constraint, each bound, each
sign of a multiplier, and, by weak duality with the residuals kept, the cost itself.

* `Program.dualObjective_le`: weak duality for multipliers that violate their
  constraints;
* `Program.cost_le_of_error_le`: the cost of any point compared to that of a feasible
  one, in terms of the error;
* `solve?_optimal`: the certificate of a run.
-/

namespace HybridGradient

open Extended Matrix

namespace Program

variable {m n : ℕ} (P : Program m n)

/-! ### What an error bounds -/

theorem abs_le_sqrt_add_left (a b : ℝ) : |a| ≤ √(a * a + b * b) :=
  Real.abs_le_sqrt (by nlinarith [mul_self_nonneg b])

theorem abs_le_sqrt_add_right (a b : ℝ) : |b| ≤ √(a * a + b * b) := by
  rw [add_comm]
  exact abs_le_sqrt_add_left b a

variable {P} {x : Fin n → ℝ} {y : Fin m → ℝ} {ε : ℝ}

/-- The error is no less than each of its parts. -/
theorem le_of_error_le (h : P.error x y ≤ ε) :
    P.primalResidual x ≤ ε ∧ P.dualResidual y ≤ ε ∧ P.gap x y ≤ ε := by
  have hp := mul_self_nonneg (P.primalResidual x)
  have hd := mul_self_nonneg (P.dualResidual y)
  have hg := mul_self_nonneg (P.gap x y)
  have hpart {a : ℝ} (ha : a * a ≤ P.primalResidual x * P.primalResidual x +
      P.dualResidual y * P.dualResidual y + P.gap x y * P.gap x y) : a ≤ ε :=
    (le_abs_self a).trans ((Real.abs_le_sqrt (by rwa [sq])).trans h)
  exact ⟨hpart (by linarith), hpart (by linarith), hpart (by linarith)⟩

/-- Without violations and without a gap there is no error. -/
theorem error_eq_zero (hrow : P.rowViolation x = 0) (hbound : P.boundViolation x = 0)
    (hcost : P.costViolation y = 0) (hsign : P.signViolation y = 0) (hgap : P.gap x y = 0) :
    P.error x y = 0 := by
  have hm : length (0 : Fin m → ℝ) = 0 := length_eq_zero.2 rfl
  have hn : length (0 : Fin n → ℝ) = 0 := length_eq_zero.2 rfl
  simp [error, primalResidual, dualResidual, hrow, hbound, hcost, hsign, hgap, hm, hn]

theorem rowViolation_le (h : P.primalResidual x ≤ ε) (i : Fin m) : |P.rowViolation x i| ≤ ε := by
  have hlength := abs_le_sqrt_add_left (length (P.rowViolation x)) (length (P.boundViolation x))
  rw [abs_of_nonneg (length_nonneg _)] at hlength
  exact (abs_le_length _ i).trans (hlength.trans h)

theorem boundViolation_le (h : P.primalResidual x ≤ ε) (j : Fin n) :
    |P.boundViolation x j| ≤ ε := by
  have hlength := abs_le_sqrt_add_right (length (P.rowViolation x)) (length (P.boundViolation x))
  rw [abs_of_nonneg (length_nonneg _)] at hlength
  exact (abs_le_length _ j).trans (hlength.trans h)

theorem length_costViolation_le (h : P.dualResidual y ≤ ε) : length (P.costViolation y) ≤ ε :=
  (le_abs_self _).trans ((abs_le_sqrt_add_left _ _).trans h)

theorem length_signViolation_le (h : P.dualResidual y ≤ ε) : length (P.signViolation y) ≤ ε :=
  (le_abs_self _).trans ((abs_le_sqrt_add_right _ _).trans h)

/-- An equality is missed by no more than the error. -/
theorem abs_excess_le (h : P.primalResidual x ≤ ε) {i : Fin m} (hi : i < P.equalities) :
    |P.excess x i| ≤ ε := by
  have hviolation := rowViolation_le h i
  rwa [rowViolation, if_pos hi] at hviolation

/-- An inequality is missed by no more than the error. -/
theorem neg_excess_le (h : P.primalResidual x ≤ ε) {i : Fin m} (hi : ¬ i < P.equalities) :
    -P.excess x i ≤ ε := by
  have hviolation := (le_abs_self _).trans (rowViolation_le h i)
  rw [rowViolation, if_neg hi] at hviolation
  exact (le_max_left _ _).trans hviolation

/-- The multiplier of an inequality is below zero by no more than the error. -/
theorem neg_le_multiplier (h : P.dualResidual y ≤ ε) {i : Fin m} (hi : ¬ i < P.equalities) :
    -ε ≤ y i := by
  have hviolation := (le_abs_self _).trans ((abs_le_length _ i).trans (length_signViolation_le h))
  rw [signViolation, if_neg hi] at hviolation
  linarith [le_max_left (-y i) 0]

theorem below_nonneg (b : Extended) (t : ℝ) : 0 ≤ below b t := by
  cases b with
  | real l => exact le_max_right _ _
  | top | bot | undefined => exact le_rfl

theorem above_nonneg (b : Extended) (t : ℝ) : 0 ≤ above b t := by
  cases b with
  | real u => exact le_max_right _ _
  | top | bot | undefined => exact le_rfl

/-- A real lower bound is violated by no more than the error. -/
theorem lower_sub_le (h : P.primalResidual x ≤ ε) {j : Fin n} {l : ℝ} (hl : P.lower j = real l) :
    l - x j ≤ ε := by
  have habove := above_nonneg (P.upper j) (x j)
  have hviolation := (le_abs_self _).trans (boundViolation_le h j)
  rw [boundViolation, hl, below] at hviolation
  linarith [le_max_left (l - x j) 0]

/-- A real upper bound is violated by no more than the error. -/
theorem sub_upper_le (h : P.primalResidual x ≤ ε) {j : Fin n} {u : ℝ} (hu : P.upper j = real u) :
    x j - u ≤ ε := by
  have hbelow := below_nonneg (P.lower j) (x j)
  have hviolation := (le_abs_self _).trans (boundViolation_le h j)
  rw [boundViolation, hu, above] at hviolation
  linarith [le_max_left (x j - u) 0]

/-! ### Weak duality -/

/-- The excess of the inequalities. -/
noncomputable def slack (P : Program m n) (x : Fin n → ℝ) (i : Fin m) : ℝ :=
  if i < P.equalities then 0 else P.excess x i

/-- A product is the difference of its positive and its negative part. -/
theorem mul_eq_parts (r t : ℝ) : r * t = max r 0 * t - max (-r) 0 * t := by
  rw [← sub_mul]
  rcases le_total 0 r with hr | hr
  · rw [max_eq_left hr, max_eq_right (neg_nonpos.2 hr), sub_zero]
  · rw [max_eq_right hr, max_eq_left (neg_nonneg.2 hr), zero_sub, neg_neg]

/-- The cost of a variable within its bounds, by what the bounds absorb of it and what they
    do not. -/
theorem absorbed_le {l u : Extended} {t : ℝ} (hl : l ≤ real t) (hu : real t ≤ u) (r : ℝ) :
    absorbed l u r ≤ r * t + |unabsorbed l u r| * |t| := by
  have hpos : 0 ≤ max r 0 := le_max_right _ _
  have hneg : 0 ≤ max (-r) 0 := le_max_right _ _
  have hlower {l : ℝ} (hl : real l ≤ real t) : l * max r 0 ≤ max r 0 * t := by
    rw [mul_comm]
    exact mul_le_mul_of_nonneg_left (real_le_real.1 hl) hpos
  have hupper {u : ℝ} (hu : real t ≤ real u) : max (-r) 0 * t ≤ u * max (-r) 0 := by
    rw [mul_comm u]
    exact mul_le_mul_of_nonneg_left (real_le_real.1 hu) hneg
  have hprod (a : ℝ) : -(a * t) ≤ |a| * |t| ∧ a * t ≤ |a| * |t| := by
    rw [← abs_mul]
    exact ⟨neg_le_abs _, le_abs_self _⟩
  -- A real bound absorbs its part of the reduced cost; what of it no bound absorbs costs
  -- no more than its size times that of the variable.
  rw [mul_eq_parts, absorbed]
  cases l with
  | real l =>
    cases u with
    | real u =>
      simp only [toReal_real, unabsorbed, abs_zero, zero_mul]
      linarith [hlower hl, hupper hu]
    | top | bot | undefined =>
      simp only [toReal, unabsorbed, zero_mul]
      linarith [hlower hl, (hprod (max (-r) 0)).2]
  | top | bot | undefined =>
    cases u with
    | real u =>
      simp only [toReal, unabsorbed, zero_mul]
      linarith [hupper hu, (hprod (max r 0)).1]
    | top | bot | undefined =>
      simp only [toReal, unabsorbed, zero_mul]
      linarith [(hprod r).1, mul_eq_parts r t]

/-- Weak duality for multipliers that may violate the dual constraints and their signs. -/
theorem dualObjective_le {x' : Fin n → ℝ} (hx' : P.Feasible x') (y : Fin m → ℝ) :
    P.dualObjective y ≤ P.primalObjective x' + length (P.costViolation y) * length x' +
      length (P.signViolation y) * length (P.slack x') := by
  have hcosts : ∑ j, absorbed (P.lower j) (P.upper j) (P.reducedCost y j) ≤
      P.reducedCost y ⬝ᵥ x' + length (P.costViolation y) * length x' := by
    have hcs := dotProduct_le_length (fun j => |P.costViolation y j|) fun j => |x' j|
    rw [length_abs, length_abs] at hcs
    refine le_trans ?_ (add_le_add_right hcs _)
    rw [dotProduct, dotProduct, ← Finset.sum_add_distrib]
    exact Finset.sum_le_sum fun j _ => absorbed_le (hx'.lower_le j) (hx'.le_upper j) _
  have hrows : P.rhs ⬝ᵥ y ≤
      y ⬝ᵥ (P.coeff *ᵥ x') + length (P.signViolation y) * length (P.slack x') := by
    refine le_trans ?_ (add_le_add_right (dotProduct_le_length _ _) _)
    rw [dotProduct, dotProduct, dotProduct, ← Finset.sum_add_distrib]
    refine Finset.sum_le_sum fun i _ => ?_
    by_cases hi : i < P.equalities
    · rw [signViolation, if_pos hi, zero_mul, add_zero, hx'.equality i hi, mul_comm]
    · -- The multiplier is nonnegative with its violation added, and so is the excess.
      have hexcess : 0 ≤ P.excess x' i := sub_nonneg.2 (hx'.inequality i hi)
      have hsign : 0 ≤ y i + max (-y i) 0 := by linarith [le_max_left (-y i) 0]
      have := mul_nonneg hsign hexcess
      have hsplit : P.excess x' i = (P.coeff *ᵥ x') i - P.rhs i := rfl
      rw [signViolation, if_neg hi, slack, if_neg hi]
      rw [hsplit] at this ⊢
      linarith
  -- The products with the coefficients cancel.
  have hswap : P.reducedCost y ⬝ᵥ x' = P.primalObjective x' - y ⬝ᵥ (P.coeff *ᵥ x') :=
    P.reducedCost_dotProduct x' y
  calc P.dualObjective y
      ≤ (y ⬝ᵥ (P.coeff *ᵥ x') + length (P.signViolation y) * length (P.slack x')) +
          (P.reducedCost y ⬝ᵥ x' + length (P.costViolation y) * length x') :=
        add_le_add hrows hcosts
    _ = P.primalObjective x' + length (P.costViolation y) * length x' +
          length (P.signViolation y) * length (P.slack x') := by
        rw [hswap]
        ring

/-- The cost of a point is no more than that of any feasible point and a multiple of the
    error. -/
theorem cost_le_of_error_le (h : P.error x y ≤ ε) {x' : Fin n → ℝ} (hx' : P.Feasible x') :
    P.primalObjective x ≤ P.primalObjective x' + ε * (1 + length x' + length (P.slack x')) := by
  -- The gap leads from the cost to the dual objective, and weak duality from there to the
  -- cost of the other point.
  obtain ⟨-, hdual, hgap⟩ := le_of_error_le h
  have hcost := mul_le_mul_of_nonneg_right (length_costViolation_le hdual) (length_nonneg x')
  have hsign := mul_le_mul_of_nonneg_right (length_signViolation_le hdual)
    (length_nonneg (P.slack x'))
  have hdist := (le_abs_self (P.primalObjective x - P.dualObjective y)).trans hgap
  have hweak := P.dualObjective_le hx' y
  linarith

end Program

/-! ### The certificate of a run -/

theorem Extended.eq_of_div_real {a : Extended} {d t : ℝ} (hd : 0 < d) (h : a / real d = real t) :
    a = real (d * t) := by
  cases a with
  | real x =>
    rw [div_real _ hd.ne'] at h
    rw [← Extended.real_injective h, mul_div_cancel₀ _ hd.ne']
  | top =>
    rw [show top / real d = top from if_neg (not_lt.2 hd.le)] at h
    exact nomatch h
  | bot =>
    rw [show bot / real d = bot from if_neg (not_lt.2 hd.le)] at h
    exact nomatch h
  | undefined => exact nomatch h

/-- Only a vector of real numbers has a preimage of real numbers. -/
theorem Vec.eq_of_divide_real {n : ℕ} {d x : Fin n → ℝ} (hd : ∀ j, 0 < d j) {v : Vec Extended}
    (hs : v.size = n) (h : divide (real d) v = real x) : v = real (d * x) := by
  refine eq_real hs fun j => eq_of_div_real (hd j) ?_
  have hget := congrArg (fun w : Vec Extended => w[(j : ℕ)]?) h
  simpa [divide, hs] using hget

/-- A run that ends as optimal has found an error within its tolerance. -/
theorem solve?_error_le {clock : ℕ → Float} {p : Problem Extended} {par : Params Extended}
    (hp : p.IsFinite) {least ε : ℝ} (hleast : par.leastFactor = .real least)
    (hε : par.tolerance = .real ε) {sol : Solution Extended} {events : Array (Event Extended)}
    (hsolve : solve? clock p par = .ok ⟨.ok sol, events⟩) (hopt : sol.status = .optimal)
    {x : Fin p.cols → ℝ} {y : Fin p.rows → ℝ} (hx : sol.primal = Vec.real x)
    (hy : sol.dual = Vec.real y) : p.program.error x y ≤ ε := by
  obtain ⟨r, v, hs⟩ := par.exists_scales hp hleast
  obtain ⟨hacc, k, last, -, hlast, rfl⟩ := exists_reached_of_solve? hsolve
  have hfits := hacc.fits_iterate clock k
  rw [← hlast.iterate] at hfits
  -- The last iterate is the image of what is returned.
  have hiterate : (par.run clock p).iterate (par.start p) k =
      ⟨Vec.real (v * x), Vec.real (r * y)⟩ := by
    rw [← hlast.iterate]
    dsimp only at hx hy
    rw [Scaled.unscalePrimal, hs.variableFactors] at hx
    rw [Scaled.unscaleDual, hs.constraintFactors] at hy
    exact congrArg₂ Iterate.mk (Vec.eq_of_divide_real hs.variable_pos hfits.primal hx)
      (Vec.eq_of_divide_real hs.constraint_pos hfits.dual hy)
  have herror : ((par.run clock p).record (par.start p) k).error ≤ par.tolerance :=
    (Run.statusAt_eq_optimal_iff k).1 hopt
  have hrecord : ((par.run clock p).record (par.start p) k).error =
      .real (p.program.error x y) := by
    rw [Run.record, hiterate]
    exact hs.error_evaluate x y _ _ _ _
  rwa [hrecord, hε, real_le_real] at herror

/-- A run that starts at a solution returns it. -/
theorem solve?_of_start {p : Problem Extended} {par : Params Extended} (clock : ℕ → Float)
    (hp : p.IsFinite) (hpar : par.error? p.rows p.cols = none) {least ε : ℝ}
    (hleast : par.leastFactor = .real least) (hε : par.tolerance = .real ε)
    {x : Fin p.cols → ℝ} {y : Fin p.rows → ℝ} (hx : par.startPrimal = some (Vec.real x))
    (hy : par.startDual = some (Vec.real y)) (herror : p.program.error x y ≤ ε) :
    ∃ sol events, solve? clock p par = .ok ⟨.ok sol, events⟩ ∧ sol.status = .optimal ∧
      sol.primal = Vec.real x ∧ sol.dual = Vec.real y := by
  obtain ⟨r, v, hs⟩ := par.exists_scales hp hleast
  have hstart : par.start p = ⟨Vec.real (v * x), Vec.real (r * y)⟩ := by
    rw [Params.start, hx, hy, ← hs.scalePrimal, ← hs.scaleDual]
    rfl
  have hrecord : ((par.run clock p).record (par.start p) 0).error ≤ par.tolerance := by
    have heq : ((par.run clock p).record (par.start p) 0).error =
        .real (p.program.error x y) := by
      rw [Run.record, Run.iterate, hstart]
      exact hs.error_evaluate x y _ _ _ _
    rwa [heq, hε, real_le_real]
  obtain ⟨k, last, hk, hlast, -, events, hsolve⟩ := solve?_eq clock hpar
  obtain rfl : k = 0 := Nat.le_zero.1 (hk.2 (.inr ⟨dvd_zero _, hrecord⟩))
  have hiterate : last.iterate = ⟨Vec.real (v * x), Vec.real (r * y)⟩ := by
    rw [hlast.iterate, Run.iterate, hstart]
  refine ⟨_, events, hsolve, (Run.statusAt_eq_optimal_iff 0).2 hrecord, ?_, ?_⟩
  · dsimp only
    rw [hiterate, hs.unscalePrimal]
  · dsimp only
    rw [hiterate, hs.unscaleDual]

/-- A run that returns a point and multipliers as optimal, both real numbers, certifies
    for the given problem, and with the tolerance `ε` as the bound: every equality, every
    inequality and every bound is satisfied up to `ε`, no multiplier of an inequality is
    less than `-ε`, and the cost is no more than that of any feasible point `x'` plus `ε`
    times one, the length of `x'`, and that of what `x'` leaves of the inequalities. -/
theorem solve?_optimal {clock : ℕ → Float} {p : Problem Extended} {par : Params Extended}
    (hp : p.IsFinite) {least ε : ℝ} (hleast : par.leastFactor = .real least)
    (hε : par.tolerance = .real ε) {sol : Solution Extended} {events : Array (Event Extended)}
    (hsolve : solve? clock p par = .ok ⟨.ok sol, events⟩) (hopt : sol.status = .optimal)
    {x : Fin p.cols → ℝ} {y : Fin p.rows → ℝ} (hx : sol.primal = Vec.real x)
    (hy : sol.dual = Vec.real y) :
    (∀ i : Fin p.rows, i < p.equalities →
      |(p.program.coeff *ᵥ x) i - p.program.rhs i| ≤ ε) ∧
    (∀ i : Fin p.rows, ¬ i < p.equalities →
      p.program.rhs i - (p.program.coeff *ᵥ x) i ≤ ε) ∧
    (∀ j l, p.program.lower j = .real l → l - x j ≤ ε) ∧
    (∀ j u, p.program.upper j = .real u → x j - u ≤ ε) ∧
    (∀ i : Fin p.rows, ¬ i < p.equalities → -ε ≤ y i) ∧
    ∀ x' : Fin p.cols → ℝ, p.program.Feasible x' →
      p.program.cost ⬝ᵥ x ≤ p.program.cost ⬝ᵥ x' + ε * (1 + length x' +
        length fun i : Fin p.rows =>
          if i < p.equalities then 0 else (p.program.coeff *ᵥ x' - p.program.rhs) i) := by
  have herror := solve?_error_le hp hleast hε hsolve hopt hx hy
  obtain ⟨hprimal, hdual, -⟩ := Program.le_of_error_le herror
  exact ⟨fun i => Program.abs_excess_le hprimal, fun i hi => by
      rw [← neg_sub]
      exact Program.neg_excess_le hprimal hi, fun j l => Program.lower_sub_le hprimal,
    fun j u => Program.sub_upper_le hprimal, fun i => Program.neg_le_multiplier hdual,
    fun x' => Program.cost_le_of_error_le herror⟩

/-- The solution of the small program, with multipliers that leave reduced costs at both bounds. -/
theorem Program.error_blend : blend.error ![0, 1] ![9 / 8, 0] = 0 := by
  have hexcess : blend.excess ![0, 1] = ![0, 5 / 4] := by
    rw [excess_blend]
    norm_num
  have hreduced : blend.reducedCost ![9 / 8, 0] = ![1 / 2, -1 / 8] := by
    rw [reducedCost_blend]
    norm_num
  refine error_eq_zero ?_ ?_ ?_ ?_ ?_
  · funext i
    fin_cases i
    · simp [rowViolation, hexcess, equalities_blend]
    · norm_num [rowViolation, hexcess, equalities_blend]
  · funext j
    fin_cases j <;> simp [boundViolation, lower_blend, upper_blend, below, above]
  · funext j
    fin_cases j
    · simp [costViolation, hreduced, lower_blend, upper_blend, unabsorbed]
    · norm_num [costViolation, hreduced, lower_blend, upper_blend, unabsorbed]
  · funext i
    fin_cases i <;> simp [signViolation, equalities_blend]
  · rw [gap, primalObjective, dualObjective, hreduced, cost_blend, rhs_blend, lower_blend,
      upper_blend]
    norm_num [absorbed]

/-- A balanced run on the small program certifies that no feasible point costs less than
    its solution by more than the tolerance allows. -/
theorem exists_optimal_blend :
    ∃ par : Params Extended, par.rescale = true ∧ par.tolerance = .real (1 / 1000) ∧
      ∃ sol events, solve? (fun _ => 0) .blend par = .ok ⟨.ok sol, events⟩ ∧
        sol.status = .optimal ∧
        ∀ x', Program.blend.Feasible x' →
          1 ≤ Program.blend.cost ⬝ᵥ x' + 1 / 1000 * (1 + length x' +
            length fun i : Fin 2 => if (i : ℕ) < 1 then 0
              else (Program.blend.coeff *ᵥ x' - Program.blend.rhs) i) := by
  let par : Params Extended :=
    { (default : Params Extended) with
      tolerance := .real (1 / 1000), leastFactor := .real 1
      startPrimal := some (Vec.real ![0, 1]), startDual := some (Vec.real ![9 / 8, 0]) }
  have hpos : (0 : ℝ) < 1 / 1000 := by norm_num
  have hacc : par.Accepted 2 2 :=
    ⟨by decide, by decide, zero_lt_real.2 hpos, nofun,
      fun x hx => by rw [← Option.some.inj hx, Vec.size_real],
      fun y hy => by rw [← Option.some.inj hy, Vec.size_real]⟩
  have hleast : par.leastFactor = .real 1 := rfl
  have hε : par.tolerance = .real (1 / 1000) := rfl
  obtain ⟨sol, events, hsolve, hopt, hx, hy⟩ := solve?_of_start (p := .blend)
    (fun _ => 0) Problem.isFinite_blend hacc.error?_eq_none hleast hε rfl rfl
    (Program.error_blend.le.trans hpos.le)
  have hcost : Program.blend.cost ⬝ᵥ ![0, 1] = 1 := by
    rw [Program.cost_blend]
    norm_num
  refine ⟨par, rfl, rfl, sol, events, hsolve, hopt, fun x' hx' => hcost.symm.trans_le ?_⟩
  exact (solve?_optimal Problem.isFinite_blend hleast hε hsolve hopt hx hy).2.2.2.2.2 x' hx'

end HybridGradient
