import HybridGradient.Proofs.Bounds
import HybridGradient.Proofs.Findings
import HybridGradient.Proofs.Renaming

/-!
# Names do not matter

A run on a problem whose variables and constraints were renamed goes through the same iterates
under the new names. Equalities must be renamed to equalities, since they are told from the
inequalities by their place alone. In exact arithmetic all sums are the same then, and so are
all records and the end of the run. A step size must be given: the start vectors of the power
method have different components, so that what it finds does depend on the names.

* `Problem.Renamed.step`, `Problem.Renamed.balanced`, `Scaled.Renamed.evaluate`: what a step, the
  balancing and an examination come to under other names;
* `Run.renamed_iterate`: the iterates of a run;
* `solve?_renamed`: whole runs.
-/

namespace HybridGradient

open Extended

variable {α : Type} {ρ σ : Equiv.Perm ℕ}

/-! ### Problems and iterates -/

/-- A problem says the same as another one, with other names for variables and constraints. The
    equalities are still the first constraints. -/
structure Problem.Renamed (ρ σ : Equiv.Perm ℕ) (p q : Problem α) : Prop where
  objective : Renames σ p.objective q.objective
  matrix : p.matrix.Renamed ρ σ q.matrix
  rightSide : Renames ρ p.rightSide q.rightSide
  equalities : q.equalities = p.equalities
  keepsEqualities : Keeps ρ p.equalities
  lower : Renames σ p.lower q.lower
  upper : Renames σ p.upper q.upper

/-- An iterate has the components of another one under other names. -/
structure Iterate.Renamed (ρ σ : Equiv.Perm ℕ) (z w : Iterate α) : Prop where
  primal : Renames σ z.primal w.primal
  dual : Renames ρ z.dual w.dual

/-- A scaled problem is another one with other names for variables and constraints. -/
structure Scaled.Renamed (ρ σ : Equiv.Perm ℕ) (s t : Scaled α) : Prop where
  problem : s.problem.Renamed ρ σ t.problem
  variableFactors : Renames σ s.variableFactors t.variableFactors
  constraintFactors : Renames ρ s.constraintFactors t.constraintFactors

theorem Iterate.renamed_zeros [Scalar α] {rows cols : ℕ} (hρ : Keeps ρ rows) (hσ : Keeps σ cols) :
    (zeros rows cols : Iterate α).Renamed ρ σ (zeros rows cols) :=
  ⟨.replicate hσ 0, .replicate hρ 0⟩

theorem Iterate.Renamed.displacement [Scalar α] {z z' w w' : Iterate α} (hw : w.Renamed ρ σ w')
    (hz : z.Renamed ρ σ z') : (w.displacement z).Renamed ρ σ (w'.displacement z') :=
  ⟨hz.primal.zipWith _ hw.primal, hz.dual.zipWith _ hw.dual⟩

theorem Renames.divide [Scalar α] {d d' x x' : Vec α} (hd : Renames σ d d')
    (hx : Renames σ x x') : Renames σ (Vec.divide d x) (Vec.divide d' x') := hx.zipWith _ hd

theorem Renames.image [Scalar α] {d d' x x' : Vec α} (hd : Renames σ d d') (hx : Renames σ x x') :
    Renames σ (Scaled.image d x) (Scaled.image d' x') := by
  rw [Scaled.image, Scaled.image, hx.size]
  exact (hd.zipWith _ hx).zipWith _ (.replicate hx.keeps 0)

namespace Problem.Renamed

/-- The bounds of the variables are the same, each at its new place. -/
theorem accepted_iff [Scalar α] {p q : Problem α} (h : p.Renamed ρ σ q) :
    q.Accepted ↔ p.Accepted := by
  have hbounds := (h.lower.zipWith Prod.mk h.upper).perm
  simp only [Problem.accepted_iff_emptyBounds?, Problem.emptyBounds?_eq_none_iff]
  change (∀ b ∈ Array.zipWith Prod.mk q.lower q.upper, _) ↔
    ∀ b ∈ Array.zipWith Prod.mk p.lower p.upper, _
  simp only [← Array.mem_toList_iff, hbounds.mem_iff]

variable {p q : Problem Extended}

theorem projectPrimal (h : p.Renamed ρ σ q) {x x' : Vec Extended} (hx : Renames σ x x') :
    Renames σ (p.projectPrimal x) (q.projectPrimal x') :=
  hx.zipWith _ (h.lower.zipWith _ h.upper)

theorem projectDual (h : p.Renamed ρ σ q) {y y' : Vec Extended} (hy : Renames ρ y y') :
    Renames ρ (p.projectDual y) (q.projectDual y') := by
  rw [Problem.projectDual, Problem.projectDual, h.equalities]
  refine hy.mapIdx fun i => ?_
  simp only [h.keepsEqualities.lt_iff]

theorem step (h : p.Renamed ρ σ q) (t : Extended) {z w : Iterate Extended}
    (hz : z.Renamed ρ σ w) : (p.step t z).Renamed ρ σ (q.step t w) := by
  have hnew : Renames σ (p.stepPrimal t z) (q.stepPrimal t w) :=
    h.projectPrimal (h.matrix.transposeProduct hz.dual (hz.primal.zipWith _ h.objective) _ _)
  have hextrapolate : Renames σ (extrapolate z.primal (p.stepPrimal t z))
      (extrapolate w.primal (q.stepPrimal t w)) := (hnew.map _).zipWith _ hz.primal
  exact ⟨hnew, h.projectDual ((h.matrix.product hextrapolate hz.dual _ _).zipWith _ h.rightSide)⟩

theorem identity (h : p.Renamed ρ σ q) : (Scaled.identity p).Renamed ρ σ (.identity q) := by
  refine ⟨h, ?_, ?_⟩
  · simp only [Scaled.identity, cols, h.matrix.cols]
    exact .replicate h.matrix.keepsCols 1
  · simp only [Scaled.identity, rows, h.matrix.rows]
    exact .replicate h.matrix.keepsRows 1

theorem balanced (h : p.Renamed ρ σ q) (means largests : ℕ) (least : Extended) :
    (Scaled.balanced p means largests least).Renamed ρ σ (.balanced q means largests least) := by
  have hf := h.matrix.balancing means largests least
  simp only [Scaled.balanced]
  split
  · exact h.identity
  · exact {
      problem := {
        objective := hf.cols.divide h.objective
        matrix := (h.matrix.reorder _ _).mapValues hf.scaledValue
        rightSide := hf.rows.divide h.rightSide
        equalities := h.equalities
        keepsEqualities := h.keepsEqualities
        lower := hf.cols.image h.lower
        upper := hf.cols.image h.upper }
      variableFactors := hf.cols
      constraintFactors := hf.rows }

end Problem.Renamed

/-! ### Examinations -/

/-- What a variable contributes to the dual objective is added to what is there. -/
theorem exists_addBoundCost (bounds : Extended × Extended) (r : Extended) :
    ∃ v, ∀ sum, addBoundCost sum bounds r = sum + v := by
  have hadd (c : Bool) (a : Extended) :
      ∃ v, ∀ sum : Extended, (if c = true then sum + a else sum) = sum + v := by
    cases c with
    | true => exact ⟨a, fun _ => rfl⟩
    | false => exact ⟨0, fun sum => (Extended.add_zero sum).symm⟩
  obtain ⟨v, hv⟩ := hadd (Scalar.isFinite bounds.1) (bounds.1 * Scalar.positivePart r)
  obtain ⟨w, hw⟩ := hadd (Scalar.isFinite bounds.2) (-(bounds.2 * Scalar.positivePart (-r)))
  refine ⟨v + w, fun sum => ?_⟩
  rw [← Extended.add_assoc, ← hv, ← hw]
  rfl

namespace Scaled.Renamed

variable {s t : Scaled Extended} {x x' y y' : Vec Extended}

theorem bounds (h : s.Renamed ρ σ t) : Renames σ s.bounds t.bounds :=
  (h.variableFactors.divide h.problem.lower).zipWith _
    (h.variableFactors.divide h.problem.upper)

theorem rowViolations (h : s.Renamed ρ σ t) (hx : Renames σ x x') :
    Renames ρ (s.rowViolations x) (t.rowViolations x') := by
  rw [Scaled.rowViolations, Scaled.rowViolations, h.problem.equalities]
  refine ((h.problem.matrix.product hx h.problem.rightSide _ _).zipWith _
    h.constraintFactors).mapIdx fun i => ?_
  simp only [h.problem.keepsEqualities.lt_iff]

theorem boundViolations (h : s.Renamed ρ σ t) (hx : Renames σ x x') :
    Renames σ (s.boundViolations x) (t.boundViolations x') :=
  h.bounds.zipWith _ (h.variableFactors.divide hx)

theorem reducedCosts (h : s.Renamed ρ σ t) (hy : Renames ρ y y') :
    Renames σ (s.reducedCosts y) (t.reducedCosts y') :=
  (h.problem.matrix.transposeProduct hy h.problem.objective _ _).zipWith _ h.variableFactors

theorem costViolations (h : s.Renamed ρ σ t) (hy : Renames ρ y y') :
    Renames σ (s.costViolations y) (t.costViolations y') :=
  h.bounds.zipWith _ (h.reducedCosts hy)

/-- The inequalities come after the equalities, in another order. -/
theorem signViolations_perm (h : s.Renamed ρ σ t) (hy : Renames ρ y y') :
    (t.signViolations y').toList.Perm (s.signViolations y).toList := by
  have hdual := (h.constraintFactors.divide hy).drop_perm h.problem.keepsEqualities
  rw [Scaled.signViolations, Scaled.signViolations, h.problem.equalities]
  have hextract (z : Vec Extended) (k : ℕ) : (z.extract k).toList = z.toList.drop k := by
    simp [List.take_of_length_le]
  rw [Array.toList_map, Array.toList_map, hextract, hextract]
  exact hdual.map _

theorem boundCost (h : s.Renamed ρ σ t) (hy : Renames ρ y y') :
    t.boundCost y' = s.boundCost y := by
  have hperm := (h.bounds.zipWith Prod.mk (h.reducedCosts hy)).perm
  have hcomm (sum : Extended) (a b : (Extended × Extended) × Extended) :
      addBoundCost (addBoundCost sum a.1 a.2) b.1 b.2 =
        addBoundCost (addBoundCost sum b.1 b.2) a.1 a.2 := by
    obtain ⟨v, hv⟩ := exists_addBoundCost a.1 a.2
    obtain ⟨w, hw⟩ := exists_addBoundCost b.1 b.2
    simp only [hv, hw, Extended.add_right_comm]
  rw [Scaled.boundCost, Scaled.boundCost, ← Array.foldl_toList, ← Array.foldl_toList]
  exact hperm.foldl_eq' (fun a _ b _ sum => hcomm sum a b) 0

theorem evaluate (h : s.Renamed ρ σ t) {z w move move' : Iterate Extended}
    (hz : z.Renamed ρ σ w) (hmove : move.Renamed ρ σ move') (i : ℕ) (passes elapsed : Float) :
    t.evaluate w move' i passes elapsed = s.evaluate z move i passes elapsed := by
  have hprimal := h.problem.objective.inner hz.primal
  have hdual := h.problem.rightSide.inner hz.dual
  have hboundCost := h.boundCost hz.dual
  have hrows := (h.rowViolations hz.primal).norm
  have hbounds := (h.boundViolations hz.primal).norm
  have hcosts := (h.costViolations hz.dual).norm
  have hsigns := Vec.norm_eq_of_perm (h.signViolations_perm hz.dual)
  have hprimalMove := (h.variableFactors.divide hmove.primal).norm
  have hdualMove := (h.constraintFactors.divide hmove.dual).norm
  simp only [Scaled.evaluate, primalObjective, dualObjective, hprimal, hdual, hboundCost, hrows,
    hbounds, hcosts, hsigns, unscalePrimal, unscaleDual, hprimalMove, hdualMove]

end Scaled.Renamed

/-! ### Runs -/

namespace Params

/-- The same parameters with other vectors to start from. -/
def startingFrom (par : Params α) (x y : Option (Vec α)) : Params α :=
  { par with startPrimal := x, startDual := y }

variable {p q : Problem Extended}

theorem renamed_scaled (par : Params Extended) (x y : Option (Vec Extended))
    (h : p.Renamed ρ σ q) :
    (par.scaled p).1.Renamed ρ σ ((par.startingFrom x y).scaled q).1 := by
  rw [scaled, scaled, show (par.startingFrom x y).rescale = par.rescale from rfl]
  cases par.rescale with
  | true => exact h.balanced _ _ _
  | false => exact h.identity

variable {par : Params Extended} {x y : Option (Vec Extended)}

theorem renamed_start (h : p.Renamed ρ σ q) (hx : Option.Rel (Renames σ) par.startPrimal x)
    (hy : Option.Rel (Renames ρ) par.startDual y) :
    (par.start p).Renamed ρ σ ((par.startingFrom x y).start q) := by
  have hscaled := par.renamed_scaled x y h
  constructor
  · simp only [start, startingFrom, Problem.cols, h.matrix.cols]
    generalize par.startPrimal = x' at hx
    cases hx with
    | some hx => exact hscaled.variableFactors.image hx
    | none => exact .replicate h.matrix.keepsCols 0
  · simp only [start, startingFrom, Problem.rows, h.matrix.rows]
    generalize par.startDual = y' at hy
    cases hy with
    | some hy => exact hscaled.constraintFactors.image hy
    | none => exact .replicate h.matrix.keepsRows 0

end Params

namespace Run

variable {run run' : Run Extended} {z w : Iterate Extended}

theorem renamed_iterate (h : run.scaled.Renamed ρ σ run'.scaled)
    (ht : run'.stepSize = run.stepSize) (hz : z.Renamed ρ σ w) (i : ℕ) :
    (run.iterate z i).Renamed ρ σ (run'.iterate w i) := by
  induction i with
  | zero => exact hz
  | succ i ih =>
    rw [iterate, iterate, ht]
    exact h.problem.step run.stepSize ih

theorem renamed_move (h : run.scaled.Renamed ρ σ run'.scaled)
    (ht : run'.stepSize = run.stepSize) (hz : z.Renamed ρ σ w) (i : ℕ) :
    (run.move z i).Renamed ρ σ (run'.move w i) := by
  cases i with
  | zero =>
    rw [move, move, Problem.rows, Problem.cols, Problem.rows, Problem.cols, h.problem.matrix.rows,
      h.problem.matrix.cols]
    exact Iterate.renamed_zeros h.problem.matrix.keepsRows h.problem.matrix.keepsCols
  | succ i => exact (renamed_iterate h ht hz i).displacement (renamed_iterate h ht hz (i + 1))

end Run

namespace Params

variable {par : Params Extended} {p q : Problem Extended} {x y : Option (Vec Extended)}

/-- A step size that is given does not depend on the problem. -/
theorem stepSize_run (ht : par.stepSize.isSome) (p q : Problem Extended)
    (clock clock' : ℕ → Float) :
    ((par.startingFrom x y).run clock' q).stepSize = (par.run clock p).stepSize := by
  obtain ⟨t, ht⟩ := Option.isSome_iff_exists.1 ht
  simp only [run, chooseStepSize, startingFrom, ht]

/-- With a given step size, runs on a problem under either names make the same records. -/
theorem lockstep_renamed (h : p.Renamed ρ σ q) (ht : par.stepSize.isSome)
    (hx : Option.Rel (Renames σ) par.startPrimal x) (hy : Option.Rel (Renames ρ) par.startDual y)
    (clock clock' : ℕ → Float) :
    (par.run clock p).Lockstep ((par.startingFrom x y).run clock' q) (par.start p)
      ((par.startingFrom x y).start q) := by
  have hscaled := par.renamed_scaled x y h
  have hstart := renamed_start h hx hy
  have hsize := stepSize_run (x := x) (y := y) ht p q clock clock'
  refine ⟨rfl, rfl, rfl, fun i => ?_⟩
  rw [Run.untimed_record, Run.untimed_record]
  exact (hscaled.evaluate (Run.renamed_iterate hscaled hsize hstart i)
    (Run.renamed_move hscaled hsize hstart i) i _ 0).symm

theorem original_renamed (h : p.Renamed ρ σ q) (ht : par.stepSize.isSome)
    (hx : Option.Rel (Renames σ) par.startPrimal x) (hy : Option.Rel (Renames ρ) par.startDual y)
    (clock clock' : ℕ → Float) (i : ℕ) :
    ((par.run clock p).original (par.start p) i).Renamed ρ σ
      (((par.startingFrom x y).run clock' q).original ((par.startingFrom x y).start q) i) := by
  have hscaled := par.renamed_scaled x y h
  have hi := Run.renamed_iterate hscaled (stepSize_run ht p q clock clock')
    (renamed_start h hx hy) i
  exact ⟨hscaled.variableFactors.divide hi.primal, hscaled.constraintFactors.divide hi.dual⟩

theorem accepted_startingFrom (h : p.Renamed ρ σ q) (hpar : par.error? p.rows p.cols = none)
    (hx : Option.Rel (Renames σ) par.startPrimal x)
    (hy : Option.Rel (Renames ρ) par.startDual y) :
    (par.startingFrom x y).error? q.rows q.cols = none := by
  have hacc := accepted_of_error?_eq_none hpar
  refine Accepted.error?_eq_none ⟨hacc.recordEvery, hacc.printEvery, hacc.tolerance,
    hacc.stepSize, ?_, ?_⟩
  · rw [Problem.cols, h.matrix.cols]
    exact size_of_rel_renames hx hacc.startPrimal
  · rw [Problem.rows, h.matrix.rows]
    exact size_of_rel_renames hy hacc.startDual

end Params

/-- Every problem has a version with other names, for each such version of its matrix. -/
theorem Problem.exists_renamed (p : Problem α) {B : SparseMatrix α} (hB : p.matrix.Renamed ρ σ B)
    (hequalities : Keeps ρ p.equalities) : ∃ q, q.matrix = B ∧ p.Renamed ρ σ q := by
  have hcols {x : Vec α} (hx : x.size = p.matrix.cols) :
      ∃ x', Renames σ x x' ∧ x'.size = B.cols := by
    obtain ⟨x', hx'⟩ := exists_renames (x := x) (hx ▸ hB.keepsCols)
    exact ⟨x', hx', hx'.size.trans (hx.trans hB.cols.symm)⟩
  obtain ⟨objective, hobjective, size_objective⟩ := hcols p.size_objective
  obtain ⟨lower, hlower, size_lower⟩ := hcols p.size_lower
  obtain ⟨upper, hupper, size_upper⟩ := hcols p.size_upper
  obtain ⟨rightSide, hrightSide⟩ := exists_renames (x := p.rightSide)
    (p.size_rightSide ▸ hB.keepsRows)
  exact ⟨{
    objective, matrix := B, rightSide, equalities := p.equalities, lower, upper
    size_objective, size_lower, size_upper
    size_rightSide := hrightSide.size.trans (p.size_rightSide.trans hB.rows.symm)
    equalities_le := p.equalities_le.trans_eq hB.rows.symm }, rfl,
    hobjective, hB, hrightSide, rfl, hequalities, hlower, hupper⟩

/-- In exact arithmetic, and with a given step size, the names of variables and constraints do not
    matter, whether a run balances its problem or not.

    For all permutations of the variables and of the constraints that map equalities to
    equalities, an accepted problem has a renamed version, which is made of the renamed triplets
    if the problem is made of triplets. Every renamed version is accepted, in whichever order
    and storage its entries are given. If parameters are accepted, the run on a renamed version
    from the renamed vectors ends in the same way as the run on the problem. It returns the
    renamed solution and, apart from the seconds, the same table. -/
theorem solve?_renamed {p : Problem Extended} (hp : p.Accepted) {ρ : Equiv.Perm (Fin p.rows)}
    (hρ : ∀ i : Fin p.rows, (i : ℕ) < p.equalities → (ρ i : ℕ) < p.equalities)
    (σ : Equiv.Perm (Fin p.cols)) :
    (∃ q, p.Renamed (onIndices ρ) (onIndices σ) q) ∧
    (∀ triplets, SparseMatrix.ofTriplets? p.rows p.cols triplets = .ok p.matrix →
      ∃ q, SparseMatrix.ofTriplets? p.rows p.cols
        (triplets.map (Entry.rename (onIndices ρ) (onIndices σ))) = .ok q.matrix ∧
        p.Renamed (onIndices ρ) (onIndices σ) q) ∧
    ∀ q, p.Renamed (onIndices ρ) (onIndices σ) q → q.Accepted ∧
      ∀ par : Params Extended, par.error? p.rows p.cols = none → par.stepSize.isSome →
        (∃ x y, Option.Rel (Renames (onIndices σ)) par.startPrimal x ∧
          Option.Rel (Renames (onIndices ρ)) par.startDual y) ∧
        ∀ x y, Option.Rel (Renames (onIndices σ)) par.startPrimal x →
          Option.Rel (Renames (onIndices ρ)) par.startDual y →
          ∀ clock clock' : ℕ → Float, ∃ sol sol' events events',
            solve? clock p par = .ok ⟨.ok sol, events⟩ ∧
            solve? clock' q (par.startingFrom x y) = .ok ⟨.ok sol', events'⟩ ∧
            sol'.status = sol.status ∧
            Renames (onIndices σ) sol.primal sol'.primal ∧
            Renames (onIndices ρ) sol.dual sol'.dual ∧
            sol'.table.untimed = sol.table.untimed := by
  have hequalities := keeps_onIndices_of_le p.equalities_le hρ
  refine ⟨?_, ?_, ?_⟩
  · obtain ⟨B, hB⟩ := p.matrix.exists_renamed (keeps_onIndices ρ) (keeps_onIndices σ)
    obtain ⟨q, -, hq⟩ := p.exists_renamed hB hequalities
    exact ⟨q, hq⟩
  · intro triplets htriplets
    obtain ⟨B, hB, hrenamed⟩ :=
      SparseMatrix.ofTriplets?_rename htriplets (keeps_onIndices ρ) (keeps_onIndices σ)
    obtain ⟨q, rfl, hq⟩ := p.exists_renamed hrenamed hequalities
    exact ⟨q, hB, hq⟩
  · intro q hq
    refine ⟨hq.accepted_iff.2 hp, fun par hpar ht => ⟨?_, ?_⟩⟩
    · have hacc := Params.accepted_of_error?_eq_none hpar
      obtain ⟨x, hx⟩ := exists_rel_renames (keeps_onIndices σ) hacc.startPrimal
      obtain ⟨y, hy⟩ := exists_rel_renames (keeps_onIndices ρ) hacc.startDual
      exact ⟨x, y, hx, hy⟩
    · intro x y hx hy clock clock'
      obtain ⟨k, sol, sol', events, events', hsolve, hsolve', hsol, hsol', htable, hstatus⟩ :=
        (Params.lockstep_renamed hq ht hx hy clock clock').exists_solve? hpar
          (Params.accepted_startingFrom hq hpar hx hy)
      have horiginal := Params.original_renamed hq ht hx hy clock clock' k
      rw [← hsol, ← hsol'] at horiginal
      exact ⟨sol, sol', events, events', hsolve, hsolve', hstatus.symm, horiginal.primal,
        horiginal.dual, htable.symm⟩

/-- Two nonnegative variables with a given sum, of which neither exceeds a bound of its own. -/
noncomputable def Problem.budget : Problem Extended where
  objective := #[.real 1, .real 2]
  matrix := .ofEntries 3 2 .byColumn
    [⟨0, 0, .real 1⟩, ⟨0, 1, .real 1⟩, ⟨1, 0, .real (-1)⟩, ⟨2, 1, .real (-1)⟩] (by simp)
  rightSide := #[.real 3, .real (-1), .real (-4)]
  equalities := 1
  lower := #[.real 0, .real 0]
  upper := #[.top, .top]
  size_objective := rfl
  size_rightSide := rfl
  size_lower := rfl
  size_upper := rfl
  equalities_le := by decide

/-- The two variables change names, and so do the two inequalities. -/
theorem exists_renamed_budget :
    ∃ (q : Problem Extended) (par : Params Extended), par.rescale = true ∧
      q.objective[0]? = Problem.budget.objective[1]? ∧
      q.rightSide[2]? = Problem.budget.rightSide[1]? ∧
      ∃ sol sol' events events', solve? (fun _ => 0) .budget par = .ok ⟨.ok sol, events⟩ ∧
        solve? (fun _ => 1) q par = .ok ⟨.ok sol', events'⟩ ∧ sol'.status = sol.status ∧
        sol'.primal[0]? = sol.primal[1]? ∧ sol'.dual[2]? = sol.dual[1]? ∧
        sol'.table.untimed = sol.table.untimed := by
  let par : Params Extended :=
    { (default : Params Extended) with tolerance := .real 1, stepSize := some (.real 1) }
  have hpar : par.Accepted 3 2 :=
    ⟨by decide, by decide, zero_lt_real.2 one_pos,
      fun t ht => Option.some.inj ht ▸ zero_lt_real.2 one_pos, nofun, nofun⟩
  have hp : Problem.budget.Accepted := by
    refine Problem.accepted_iff.2 fun j : Fin 2 => ?_
    fin_cases j <;> exact real_le_top 0
  let ρ : Equiv.Perm (Fin 3) := Equiv.swap 1 2
  let σ : Equiv.Perm (Fin 2) := Equiv.swap 0 1
  have hρ : ∀ i : Fin 3, (i : ℕ) < 1 → (ρ i : ℕ) < 1 := by decide
  have h : onIndices ρ 1 = 2 := onIndices_apply ρ 1
  have h' : onIndices σ 1 = 0 := onIndices_apply σ 1
  obtain ⟨⟨q, hq⟩, -, hruns⟩ := solve?_renamed hp hρ σ
  obtain ⟨sol, sol', events, events', hsolve, hsolve', hstatus, hprimal, hdual, htable⟩ :=
    ((hruns q hq).2 par hpar.error?_eq_none rfl).2 none none .none .none (fun _ => 0) fun _ => 1
  exact ⟨q, par, rfl, h' ▸ hq.objective 1, h ▸ hq.rightSide 1, sol, sol', events, events', hsolve,
    hsolve', hstatus, h' ▸ hprimal 1, h ▸ hdual 1, htable⟩

end HybridGradient
