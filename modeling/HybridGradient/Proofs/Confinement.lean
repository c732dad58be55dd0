import HybridGradient.Proofs.Absorption
import HybridGradient.Proofs.BalancedProblem
import HybridGradient.Proofs.Resumption

/-!
# Iterates keep to the bounds

The last thing that a step does is to clamp the point to the bounds and to cut the multipliers of
the inequalities off at zero. Whatever it starts from, each component of what it leads to keeps
to its bounds, or is no number, since what compares with nothing is left where it is. This needs
no more of the arithmetic than its comparisons, and of the bounds that they are in order, which
scaling by positive numbers does not change. In exact arithmetic the given problem is scaled back
without an error, so that the solution keeps to its bounds.

* `Binary.confined_clamp`, `Binary.confined_positivePart`: the two projections of one component;
* `Problem.Confines`: an iterate keeps to the bounds of a problem, where it is a number;
* `Problem.confines_step`, `Run.confines_iterate`: one step brings it there, and each further
  step;
* `Program.between_step`, `solve?_between`: the same in exact arithmetic, and for solutions;
* `solve?_confined`: both.
-/

namespace HybridGradient

open Extended Binary

/-! ### Projections of one component -/

theorem Extended.le_of_not_lt_of_defined {a b : Extended} (h : ¬ a < b) (ha : a ≠ undefined)
    (hb : b ≠ undefined) : b ≤ a := by
  cases a with
  | real x =>
    cases b with
    | real y => exact real_le_real.2 (not_lt.1 h)
    | top => exact absurd trivial h
    | bot => exact bot_le_real x
    | undefined => exact absurd rfl hb
  | top =>
    cases b with
    | real y => exact real_le_top y
    | top => exact .inr ⟨rfl, ha⟩
    | bot => exact .inl trivial
    | undefined => exact absurd rfl hb
  | bot =>
    cases b with
    | real | top => exact absurd trivial h
    | bot => exact .inr ⟨rfl, ha⟩
    | undefined => exact absurd rfl hb
  | undefined => exact absurd rfl ha

namespace Binary

variable {α : Type} [Scalar α] [Binary α] [LawfulBinary α] {l u x : α}

theorem le_of_not_lt (h : ¬ x < l) (hx : ¬ IsUndefined x) (hl : ¬ IsUndefined l) : l ≤ x :=
  le_iff.2 (le_of_not_lt_of_defined (mt lt_iff.2 h) hx hl)

theorem le_self (hx : ¬ IsUndefined x) : x ≤ x :=
  le_of_not_lt (fun h => not_lt_self _ (lt_iff.1 h)) hx hx

theorem IsUndefined.not_le_right (hx : IsUndefined x) (y : α) : ¬ y ≤ x := fun h =>
  not_le_undefined _ (hx ▸ Binary.le_iff.1 h)

/-- Clamping to bounds that are in order leads between them. -/
theorem confined_clamp (h : l ≤ u) (x : α) :
    IsUndefined (Scalar.clamp l u x) ∨ l ≤ Scalar.clamp l u x ∧ Scalar.clamp l u x ≤ u := by
  have hl : ¬ IsUndefined l := fun hl => hl.not_le u h
  have hu : ¬ IsUndefined u := fun hu => hu.not_le_right l h
  rw [or_iff_not_imp_left, Scalar.clamp]
  intro hx
  by_cases hlower : x < l
  · rw [if_pos hlower]
    exact ⟨le_self hl, h⟩
  · rw [if_neg hlower] at hx ⊢
    by_cases hupper : u < x
    · rw [if_pos hupper]
      exact ⟨h, le_self hu⟩
    · rw [if_neg hupper] at hx ⊢
      exact ⟨le_of_not_lt hlower hx hl, le_of_not_lt hupper hu hx⟩

theorem confined_positivePart (x : α) :
    IsUndefined (Scalar.positivePart x) ∨ 0 ≤ Scalar.positivePart x := by
  have hzero : ¬ IsUndefined (0 : α) := by simp [IsUndefined, value_zero]
  rw [or_iff_not_imp_left, Scalar.positivePart]
  intro hx
  by_cases hneg : x < 0
  · rw [if_pos hneg]
    exact le_self hzero
  · rw [if_neg hneg] at hx ⊢
    exact le_of_not_lt hneg hx hzero

end Binary

/-! ### Iterates in binary arithmetic -/

section

variable {α : Type} [Scalar α] [Binary α] [LawfulBinary α]

/-- Each component of an iterate is no number or keeps to its bounds: the variables to those
    that they have, and the multipliers of the inequalities to the numbers from zero on. -/
structure Problem.Confines (p : Problem α) (z : Iterate α) : Prop where
  fits : z.Fits p.rows p.cols
  primal : ∀ (j : ℕ) (x l u : α), z.primal[j]? = some x → p.lower[j]? = some l →
    p.upper[j]? = some u → IsUndefined x ∨ l ≤ x ∧ x ≤ u
  dual : ∀ (i : ℕ) (y : α), p.equalities ≤ i → z.dual[i]? = some y → IsUndefined y ∨ 0 ≤ y

/-- A step leads to an iterate that keeps to the bounds, whatever it starts from. -/
theorem Problem.confines_step {p : Problem α} (hp : p.Accepted) (t : α) {z : Iterate α}
    (hz : z.Fits p.rows p.cols) : p.Confines (p.step t z) where
  fits := p.fits_step t hz
  primal j x l u hx hl hu := by
    have hbounds : (Array.zip p.lower p.upper)[j]? = some (l, u) :=
      Array.getElem?_zip_eq_some.2 ⟨hl, hu⟩
    have hle : l ≤ u := by
      rw [accepted_iff_emptyBounds?, emptyBounds?_eq_none_iff] at hp
      exact hp _ (Array.mem_of_getElem? hbounds)
    simp only [step, stepPrimal, projectPrimal, Array.getElem?_zipWith_eq_some, hbounds] at hx
    obtain ⟨v, b, -, hb, rfl⟩ := hx
    obtain rfl := Option.some.inj hb
    exact confined_clamp hle v
  dual i y hi hy := by
    simp only [step, stepDual, projectDual, Array.getElem?_mapIdx, if_neg (not_lt.2 hi),
      Option.map_eq_some_iff] at hy
    obtain ⟨v, -, rfl⟩ := hy
    exact confined_positivePart v

/-- Each iterate of a run but the first one keeps to the bounds. -/
theorem Run.confines_iterate {run : Run α} (hp : run.scaled.problem.Accepted) {z : Iterate α}
    (hz : z.Fits run.scaled.problem.rows run.scaled.problem.cols) {k : ℕ} (hk : k ≠ 0) :
    run.scaled.problem.Confines (run.iterate z k) := by
  obtain ⟨k, rfl⟩ := Nat.exists_eq_succ_of_ne_zero hk
  exact Problem.confines_step hp _ (fits_iterate hz k)

/-- A problem that is scaled by positive finite numbers is still accepted. -/
theorem Scaled.accepted {p : Problem α} (hp : p.Accepted) {s : Scaled α}
    (hs : s = identity p ∨ ∃ means largests least, s = balanced p means largests least ∧
      ∀ d ∈ s.variableFactors, Scalar.isFinite d = true ∧ 0 < d) : s.problem.Accepted := by
  rcases hs with rfl | ⟨means, largests, least, rfl, hfactors⟩
  · exact hp
  · exact accepted_balanced hp hfactors

end

/-! ### Solutions in exact arithmetic -/

section

variable {m n : ℕ}

/-- A step leads to a point between the bounds and to multipliers of the inequalities that are
    not negative. -/
theorem Program.between_step {P : Program m n} (hP : P.Bounded) (t : ℝ) (z : Point m n) :
    (∀ j, Between (P.lower j) (P.upper j) ((P.step t z).1 j)) ∧
      ∀ i : Fin m, P.equalities ≤ i → 0 ≤ (P.step t z).2 i := by
  refine ⟨fun j => between_nearest (hP j) _, fun i hi => ?_⟩
  have hle : P.signBound i ≤ .real (P.stepDual t z i) :=
    (between_nearest (P.exists_between_signBound i) _).1
  rwa [signBound, if_neg (not_lt.2 hi), real_le_real] at hle

/-- What a step of a scaled program leads to keeps to the bounds of the program itself. -/
theorem Program.between_step_scaled {P : Program m n} (hP : P.Bounded) {r : Fin m → ℝ}
    {v : Fin n → ℝ} (hr : ∀ i, 0 < r i) (hv : ∀ j, 0 < v j) (t : ℝ) (z : Point m n) :
    ∃ x y, (P.scaled r v).step t z = (v * x, r * y) ∧
      (∀ j, Between (P.lower j) (P.upper j) (x j)) ∧
      ∀ i : Fin m, P.equalities ≤ i → 0 ≤ y i := by
  obtain ⟨hprimal, hdual⟩ := between_step (hP.scaled r hv) t z
  have hx : v * (((P.scaled r v).step t z).1 / v) = ((P.scaled r v).step t z).1 := by
    rw [mul_comm, div_mul_cancel_factors hv]
  have hy : r * (((P.scaled r v).step t z).2 / r) = ((P.scaled r v).step t z).2 := by
    rw [mul_comm, div_mul_cancel_factors hr]
  refine ⟨_, _, Prod.ext hx.symm hy.symm, fun j => ?_, fun i hi => ?_⟩
  · rw [← between_stretch_iff (hv j)]
    have hj := congrFun hx j
    rw [Pi.mul_apply] at hj
    rw [hj]
    exact hprimal j
  · exact div_nonneg (hdual i hi) (hr i).le

/-- The solution of a run that took a step keeps to the bounds of the given problem. -/
theorem solve?_between {p : Problem Extended} (hp : p.IsFinite) (hacc : p.Accepted)
    (hl : .top ∉ p.lower) (hu : .bot ∉ p.upper) {par : Params Extended} {least t : ℝ}
    (hleast : par.leastFactor = .real least)
    (hprimal : ∀ x ∈ par.startPrimal, ∀ a ∈ x, Scalar.isFinite a = true)
    (hdual : ∀ y ∈ par.startDual, ∀ a ∈ y, Scalar.isFinite a = true)
    (ht : (par.chooseStepSize (par.scaled p).1.problem.matrix).1 = .real t)
    {clock : ℕ → Float} {sol : Solution Extended} {events : Array (Event Extended)}
    (hsolve : solve? clock p par = .ok ⟨.ok sol, events⟩)
    (hstep : ∃ r ∈ sol.table.records, r.iteration ≠ 0) :
    ∃ (x : Fin p.cols → ℝ) (y : Fin p.rows → ℝ),
      sol.primal = Vec.real x ∧ sol.dual = Vec.real y ∧
      (∀ j, Between (p.program.lower j) (p.program.upper j) (x j)) ∧
      ∀ i : Fin p.rows, p.equalities ≤ i → 0 ≤ y i := by
  obtain ⟨hpar, k, last, -, hlast, rfl⟩ := exists_reached_of_solve? hsolve
  -- A record of a later iteration than the first one shows that the run took a step.
  have hk : k ≠ 0 := by
    rintro rfl
    obtain ⟨r, hr, hne⟩ := hstep
    rw [← Array.mem_toList_iff, hlast.records] at hr
    exact hne (Nat.lt_one_iff.1 (Run.iteration_lt_of_mem_recordsBefore hr))
  obtain ⟨k, rfl⟩ := Nat.exists_eq_succ_of_ne_zero hk
  obtain ⟨r, v, hs⟩ := par.exists_scales hp hleast
  obtain ⟨z, hz⟩ := Params.start_eq_real hpar hs hprimal hdual
  have hbounded := hacc.bounded hl hu
  obtain ⟨x, y, hxy, hx, hy⟩ := Program.between_step_scaled hbounded hs.constraint_pos
    hs.variable_pos t (((p.program.scaled r v).step t)^[k] z)
  have hiterate : last.iterate = ⟨Vec.real (v * x), Vec.real (r * y)⟩ := by
    rw [hlast.iterate, hz]
    refine (Run.iterate_real hs.poses (hbounded.scaled r hs.variable_pos) ht z (k + 1)).trans ?_
    rw [Function.iterate_succ_apply', hxy]
    rfl
  refine ⟨x, y, ?_, ?_, hx, hy⟩
  · rw [hiterate]
    exact hs.unscalePrimal x
  · rw [hiterate]
    exact hs.unscaleDual y

end

/-- In binary arithmetic, each iterate of a run after the first one keeps to the bounds of the
    scaled problem, where it is a number: for every accepted problem, unscaled or balanced by
    positive finite factors of the variables, every step size and every start. In exact
    arithmetic, the solution of every run that took a step keeps to the bounds of the given
    problem, and the multipliers of its inequalities are not negative. -/
theorem solve?_confined :
    (∀ (α : Type) [Scalar α] [Binary α] [LawfulBinary α] (p : Problem α), p.Accepted →
      ∀ s : Scaled α,
        (s = .identity p ∨ ∃ means largests least, s = .balanced p means largests least ∧
          ∀ d ∈ s.variableFactors, Scalar.isFinite d = true ∧ 0 < d) →
        ∀ run : Run α, run.scaled = s → ∀ z : Iterate α, z.Fits s.problem.rows s.problem.cols →
          ∀ k ≠ 0, s.problem.Confines (run.iterate z k)) ∧
    ∀ p : Problem Extended, p.IsFinite → p.Accepted → .top ∉ p.lower → .bot ∉ p.upper →
      ∀ (par : Params Extended) (least t : ℝ), par.leastFactor = .real least →
        (∀ x ∈ par.startPrimal, ∀ a ∈ x, Scalar.isFinite a = true) →
        (∀ y ∈ par.startDual, ∀ a ∈ y, Scalar.isFinite a = true) →
        (par.chooseStepSize (par.scaled p).1.problem.matrix).1 = .real t →
        ∀ clock sol events, solve? clock p par = .ok ⟨.ok sol, events⟩ →
          (∃ r ∈ sol.table.records, r.iteration ≠ 0) →
          ∃ (x : Fin p.cols → ℝ) (y : Fin p.rows → ℝ),
            sol.primal = Vec.real x ∧ sol.dual = Vec.real y ∧
            (∀ j, Between (p.program.lower j) (p.program.upper j) (x j)) ∧
            ∀ i : Fin p.rows, p.equalities ≤ i → 0 ≤ y i := by
  constructor
  · rintro α _ _ _ p hp s hs run rfl z hz k hk
    exact run.confines_iterate (Scaled.accepted hp hs) hz hk
  · intro p hp hacc hl hu par least t hleast hprimal hdual ht clock sol events hsolve hstep
    exact solve?_between hp hacc hl hu hleast hprimal hdual ht hsolve hstep

/-- A step on the single program from a start that is no number, in binary64 after balancing and in
    binary32 without, and a run in exact arithmetic that takes a step on the small program. -/
theorem exists_confined :
    (∃ run : Run Float, run.scaled = .balanced (.single Float) 10 4 1 ∧
      run.scaled.problem.Confines (run.iterate ⟨#[0 / 0], #[0 / 0]⟩ 1)) ∧
    (∃ run : Run Float32, run.scaled = .identity (.single Float32) ∧
      run.scaled.problem.Confines (run.iterate ⟨#[0 / 0], #[0 / 0]⟩ 1)) ∧
    ∃ (par : Params Extended) (sol : Solution Extended) (events : Array (Event Extended)),
      par.rescale = true ∧
      solve? (fun _ => 0) .blend par = .ok ⟨.ok sol, events⟩ ∧
      ∃ x y : Fin 2 → ℝ, sol.primal = Vec.real x ∧ sol.dual = Vec.real y ∧
        (∀ j, Between (Program.blend.lower j) (Program.blend.upper j) (x j)) ∧ 0 ≤ y 1 := by
  refine ⟨?_, ?_, ?_⟩
  · have haccepted : (Problem.single Float).Accepted :=
      Problem.accepted_iff_emptyBounds?.2 (by decide +kernel)
    have hall : (Scaled.balanced (.single Float) 10 4 1).variableFactors.all
        (fun d => Scalar.isFinite d && decide (0 < d)) = true := by decide +kernel
    have hfactors : ∀ d ∈ (Scaled.balanced (.single Float) 10 4 1).variableFactors,
        Scalar.isFinite d = true ∧ 0 < d := fun d hd => by
      simpa using Array.all_eq_true'.1 hall d hd
    exact ⟨⟨default, .balanced (.single Float) 10 4 1, 1, fun _ => 0⟩, rfl,
      solve?_confined.1 Float (.single Float) haccepted _ (.inr ⟨10, 4, 1, rfl, hfactors⟩) _ rfl _
        ⟨rfl, rfl⟩ 1 one_ne_zero⟩
  · have haccepted : (Problem.single Float32).Accepted :=
      Problem.accepted_iff_emptyBounds?.2 (by decide +kernel)
    exact ⟨⟨default, .identity (.single Float32), 1, fun _ => 0⟩, rfl,
      solve?_confined.1 Float32 (.single Float32) haccepted _ (.inl rfl) _ rfl _ ⟨rfl, rfl⟩ 1
        one_ne_zero⟩
  · obtain ⟨hacc, hl, hu⟩ := Problem.accepted_blend
    obtain ⟨sol, events, hsolve, -, hstep⟩ := solve?_oneStep fun _ => 0
    obtain ⟨x, y, hx, hy, hbetween, hsign⟩ := solve?_confined.2 _ Problem.isFinite_blend hacc hl hu
      .oneStep (1 / 2) (1 / 2) rfl nofun nofun rfl _ _ _ hsolve hstep
    exact ⟨.oneStep, sol, events, rfl, hsolve, x, y, hx, hy, hbetween, hsign (1 : Fin 2) le_rfl⟩

end HybridGradient
