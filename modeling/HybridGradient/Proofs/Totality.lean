import HybridGradient.Proofs.Bounds
import HybridGradient.Proofs.GuardedSetup
import HybridGradient.Session

/-!
# Every run comes to a result

A run cannot go wrong: whatever the data of a program, the shape and the parameters are, no
length is missed, no component is looked up that is not there, no period is zero, no record is
out of order and no count grows beyond a machine word. So a run refuses its parameters for one
of the documented reasons, or else it has a solution.

* `Guarded.examine?`, `Guarded.iterate?`, `Guarded.solve?`: the rest of the guarded program;
* `Guarded.solve?_eq`: it does what the run does;
* `solve?_total`: the run comes to a result, and which one.
-/

namespace HybridGradient

variable {α : Type} [Scalar α]

namespace Guarded

/-! ### The iteration -/

/-- The examination of an iterate, if it is due, and whether its error is within the
    tolerance. -/
def examine? (run : Run α) (atLimit : Bool) (st : Progress α) :
    Except Fault (Progress α × Bool) := do
  let recordDue ← divides? run.par.recordEvery.toNat st.iteration
  let printDue ← divides? run.par.printPeriod st.iteration
  if recordDue || atLimit then
    let r ← evaluate? run.scaled st.iterate st.move st.iteration st.passes
      (run.clock st.iteration)
    let table ← st.table.push? r
    let printed := run.par.verbose && (printDue || atLimit)
    return ({ st with
      table
      headed := st.headed || printed
      events := st.events ++ Progress.recordEvents st.headed printed r },
      decide (r.error ≤ run.par.tolerance))
  else return (st, false)

/-- The iteration, with a number of steps remaining up to the limit. -/
def iterate? (run : Run α) : (remaining : ℕ) → Progress α → Except Fault (Progress α × Status)
  | 0, st => do
    let (st, converged) ← examine? run true st
    return (st, if converged then .optimal else .iterationLimit)
  | remaining + 1, st => do
    let (st, converged) ← examine? run false st
    if converged then return (st, .optimal)
    else
      let st ← Run.advanceBy? (step? run.scaled.problem run.stepSize) st
      iterate? run remaining st

/-- The scaled problem on which a run works, and what happens when it is made. -/
def scaled? (par : Params α) (p : Problem α) : Except Fault (Scaled α × List (Event α)) := do
  if par.rescale then
    let means := par.meanPasses.toNat
    let largests := par.largestPasses.toNat
    let s ← balanced? p means largests par.leastFactor
    return (s, Scaled.balancingEvents p means largests s)
  else return (Scaled.identity p, [])

/-- A run on a problem. -/
def solve? (clock : ℕ → Float) (p : Problem α) (par : Params α) : Except Fault (Outcome α) :=
  match par.error? p.rows p.cols with
  | some cause => .ok ⟨.error cause, #[.paramsRefused cause]⟩
  | none => do
    let (scaled, balancing) ← scaled? par p
    let (stepSize, choice) ← chooseStepSize? par scaled.problem.matrix
    let primal ← startFrom? (image? scaled.variableFactors) p.cols par.startPrimal
    let dual ← startFrom? (image? scaled.constraintFactors) p.rows par.startDual
    let run : Run α := { par, scaled, stepSize, clock }
    let (last, status) ← iterate? run par.iterationLimit.toNat
      (Progress.start p.rows p.cols ⟨primal, dual⟩)
    let primal ← scaled.unscalePrimal? last.iterate.primal
    let dual ← scaled.unscaleDual? last.iterate.dual
    let before : List (Event α) :=
      [.paramsAccepted par, .initializing] ++ balancing ++ choice ++ [.stepSize stepSize, .started]
    let after : List (Event α) :=
      [.lastPrimal last.iteration last.iterate.primal, .lastDual last.iteration last.iterate.dual,
        .ended status]
    return {
      result := .ok { primal, dual, table := last.table, status }
      events := before.toArray ++ last.events ++ after }

variable {run : Run α}

/-- The iterate that a run has come to and the displacement that led to it fit the scaled
    problem. -/
structure Fits (run : Run α) (st : Progress α) : Prop where
  iterate : st.iterate.Fits run.scaled.problem.rows run.scaled.problem.cols
  move : st.move.Fits run.scaled.problem.rows run.scaled.problem.cols

theorem examine?_eq (hs : run.scaled.Fits) {st : Progress α} (hst : Fits run st)
    (atLimit : Bool) : examine? run atLimit st = run.examine? atLimit st := by
  rw [examine?, Run.examine?, evaluate?_eq hs hst.iterate hst.move,
    Scaled.evaluate?_eq hs hst.iterate hst.move]

/-- An examination leaves the iterate as it is. -/
theorem Fits.examine? {st st' : Progress α} (hst : Fits run st) {atLimit converged : Bool}
    (h : run.examine? atLimit st = .ok (st', converged)) : Fits run st' := by
  rw [Run.examine?] at h
  simp only [bind, Except.bind, pure, Except.pure] at h
  split at h
  · cases h
  split at h
  · cases h
  split at h
  · split at h
    · cases h
    split at h
    · cases h
    cases h
    exact ⟨hst.iterate, hst.move⟩
  · cases h
    exact hst

/-- What a step leads to, if its stepper does not fail. -/
theorem advanceBy?_eq {stepper : Iterate α → Except Fault (Iterate α)} {st : Progress α}
    (hst : Fits run st) {z : Iterate α} (h : stepper st.iterate = .ok z)
    (hz : z.Fits run.scaled.problem.rows run.scaled.problem.cols) :
    Run.advanceBy? stepper st = (succ? st.iteration).map fun iteration => { st with
      iterate := z, move := .displacement st.iterate z, iteration
      passes := st.passes + passesPerStep } := by
  rw [Run.advanceBy?]
  cases succ? st.iteration with
  | error fault => rfl
  | ok iteration =>
    change (stepper st.iterate >>= _) = _
    rw [h]
    change (Iterate.displacement? st.iterate z >>= _) = _
    rw [Iterate.displacement?_eq hst.iterate hz]
    rfl

/-- The guarded iteration is that of the run. -/
theorem iterate?_eq (hs : run.scaled.Fits) (remaining : ℕ) {st : Progress α}
    (hst : Fits run st) : iterate? run remaining st = run.loop? remaining st := by
  induction remaining generalizing st with
  | zero =>
    rw [iterate?, Run.loop?, Run.loopBy?, examine?_eq hs hst]
    rfl
  | succ remaining ih =>
    rw [iterate?, Run.loop?, Run.loopBy?, examine?_eq hs hst]
    cases hexamined : run.examine? false st with
    | error fault => rfl
    | ok examined =>
      obtain ⟨st', converged⟩ := examined
      have hst' := hst.examine? hexamined
      cases converged with
      | true => rfl
      | false =>
        have hz := Problem.fits_step run.scaled.problem run.stepSize hst'.iterate
        have hstepper : run.stepper? st'.iterate = .ok _ := Problem.step?_eq _ _ hst'.iterate
        change (Run.advanceBy? (step? run.scaled.problem run.stepSize) st' >>= _) =
          (Run.advanceBy? run.stepper? st' >>= run.loopBy? run.stepper? remaining)
        rw [advanceBy?_eq hst' (step?_eq hst'.iterate) hz,
          advanceBy?_eq hst' hstepper hz]
        cases succ? st'.iteration with
        | error fault => rfl
        | ok iteration => exact ih ⟨hz, hst'.iterate.displacement hz⟩

/-! ### The whole run -/

theorem scaled?_eq {p : Problem α}
    (hlines : SparseMatrix.checkLines .byColumn p.matrix.rows p.matrix.cols = .ok ())
    (par : Params α) : scaled? par p = .ok (par.scaled p) := by
  rw [scaled?, Params.scaled]
  split
  · dsimp only
    rw [balanced?_eq hlines]
    rfl
  · rfl

theorem startFrom?_image {factors : Vec α} {size : ℕ} {x : Option (Vec α)}
    (hfactors : factors.size = size) (hx : ∀ v ∈ x, v.size = size) :
    startFrom? (image? factors) size x =
      .ok ((x.map (Scaled.image factors)).getD (Vec.zeros size)) := by
  cases x with
  | none => rfl
  | some v => exact image?_eq (hfactors.trans (hx v rfl).symm)

/-- The guarded program does what the run does, if the lines of the matrix can be addressed. -/
theorem solve?_eq {p : Problem α}
    (hlines : SparseMatrix.checkLines .byColumn p.matrix.rows p.matrix.cols = .ok ())
    (clock : ℕ → Float) (par : Params α) :
    solve? clock p par = HybridGradient.solve? clock p par := by
  rw [solve?, HybridGradient.solve?]
  cases herr : par.error? p.rows p.cols with
  | some cause => rfl
  | none =>
    have hacc := Params.accepted_of_error?_eq_none herr
    have hsound := hacc.sound clock
    have hfactors := par.fits_scaled p
    obtain ⟨hrows, hcols⟩ := par.shape_scaled p
    have hprimal : startFrom? (image? (par.scaled p).1.variableFactors) p.cols par.startPrimal =
        .ok (par.start p).primal :=
      startFrom?_image (hfactors.variableFactors.trans hcols) hacc.startPrimal
    have hdual : startFrom? (image? (par.scaled p).1.constraintFactors) p.rows par.startDual =
        .ok (par.start p).dual :=
      startFrom?_image (hfactors.constraintFactors.trans hrows) hacc.startDual
    have hstart : Fits (par.run clock p) (.start p.rows p.cols (par.start p)) := by
      refine ⟨hsound.start, ?_⟩
      rw [par.rows_run, par.cols_run]
      exact Iterate.fits_zeros _ _
    have hloop := iterate?_eq hsound.scaled par.iterationLimit.toNat hstart
    rw [scaled?_eq hlines, Fault.ok_bind]
    dsimp only
    rw [chooseStepSize?_eq, Fault.ok_bind, hprimal, hdual, Params.startFrom?_primal hacc,
      Params.startFrom?_dual hacc]
    simp only [Fault.ok_bind]
    change (iterate? (par.run clock p) _ _ >>= _) = (Run.loop? (par.run clock p) _ _ >>= _)
    rw [show iterate? (par.run clock p) par.iterationLimit.toNat _ = _ from hloop]

end Guarded

/-- Parameters are refused for what they miss. -/
theorem Params.exists_error?_iff {par : Params α} {rows cols : ℕ} :
    (∃ cause, par.error? rows cols = some cause) ↔ ¬ par.Accepted rows cols := by
  rw [← Option.ne_none_iff_exists', ne_eq, not_iff_not]
  exact ⟨accepted_of_error?_eq_none, Accepted.error?_eq_none⟩

theorem Params.not_accepted_iff {par : Params α} {rows cols : ℕ} : ¬ par.Accepted rows cols ↔
    par.recordEvery = 0 ∨ par.printEvery = 0 ∨ ¬ 0 < par.tolerance ∨
      (∃ t ∈ par.stepSize, ¬ 0 < t) ∨ (∃ x ∈ par.startPrimal, x.size ≠ cols) ∨
      ∃ y ∈ par.startDual, y.size ≠ rows := by
  constructor
  · intro h
    by_contra hnot
    push Not at hnot
    exact h ⟨hnot.1, hnot.2.1, hnot.2.2.1, hnot.2.2.2.1, hnot.2.2.2.2.1, hnot.2.2.2.2.2⟩
  · rintro h hacc
    rcases h with h | h | h | ⟨t, ht, h⟩ | ⟨x, hx, h⟩ | ⟨y, hy, h⟩
    · exact hacc.recordEvery h
    · exact hacc.printEvery h
    · exact h hacc.tolerance
    · exact h (hacc.stepSize t ht)
    · exact h (hacc.startPrimal x hx)
    · exact h (hacc.startDual y hy)

/-- A run comes to a result: it refuses its parameters, or it has a solution. -/
theorem exists_outcome (clock : ℕ → Float) (p : Problem α) (par : Params α) :
    ∃ result events, solve? clock p par = .ok ⟨result, events⟩ ∧
      ((∃ cause, result = .error cause) ↔ ¬ par.Accepted p.rows p.cols) := by
  rw [← Params.exists_error?_iff]
  cases herr : par.error? p.rows p.cols with
  | some cause =>
    refine ⟨.error cause, #[.paramsRefused cause], ?_, iff_of_true ⟨cause, rfl⟩ ⟨cause, rfl⟩⟩
    rw [solve?, herr]
  | none =>
    obtain ⟨k, last, -, -, -, events, hsolve⟩ := solve?_eq clock herr
    exact ⟨_, events, hsolve, by simp⟩

/-- A run on a program over a matrix of triplets, stored by column or by row, whatever its
    shape, its values and the parameters are: the guarded program does not fail and does what
    the run does, the run refuses its parameters for the documented reasons and for no others,
    and has a solution otherwise, and telling it to a logger changes nothing. -/
theorem solve?_total {rows cols : ℕ} {triplets : List (Entry α)} {A A' : SparseMatrix α}
    (hA : SparseMatrix.ofTriplets? rows cols triplets = .ok A)
    (hA' : A' = A ∨ A.reorder? .byRow = .ok A') {objective rightSide lower upper : Vec α}
    {equalities : ℕ} {p : Problem α}
    (hp : Problem.ofData? objective A' rightSide equalities lower upper = .ok p)
    (clock : ℕ → Float) (par : Params α) :
    ∃ result events, Guarded.solve? clock p par = .ok ⟨result, events⟩ ∧
      solve? clock p par = .ok ⟨result, events⟩ ∧
      ((∃ cause, result = .error cause) ↔
        par.recordEvery = 0 ∨ par.printEvery = 0 ∨ ¬ 0 < par.tolerance ∨
          (∃ t ∈ par.stepSize, ¬ 0 < t) ∨ (∃ x ∈ par.startPrimal, x.size ≠ p.cols) ∨
          ∃ y ∈ par.startDual, y.size ≠ p.rows) ∧
      ((∃ sol, result = .ok sol) ↔ ¬ ∃ cause, result = .error cause) ∧
      ∀ [Binary α] (logger : Logger), ∃ session,
        Session.solve? clock logger p par = .ok session ∧ session.result = result := by
  obtain ⟨result, events, hsolve, hrefused⟩ := exists_outcome clock p par
  have hlines : SparseMatrix.checkLines .byColumn p.matrix.rows p.matrix.cols = .ok () := by
    obtain ⟨hrows, hcols⟩ : p.matrix.rows = A.rows ∧ p.matrix.cols = A.cols := by
      rw [(Problem.data_of_ofData? hp).2.1]
      rcases hA' with rfl | hA'
      · exact ⟨rfl, rfl⟩
      · exact SparseMatrix.shape_of_reorder? hA'
    rw [hrows, hcols]
    exact SparseMatrix.checkLines_of_ofTriplets? hA
  refine ⟨result, events, (Guarded.solve?_eq hlines clock par).trans hsolve, hsolve,
    hrefused.trans Params.not_accepted_iff, ?_, fun logger => ?_⟩
  · cases result with
    | error cause => simp
    | ok sol => simp
  · rw [Session.solve?, hsolve]
    exact ⟨_, rfl, rfl⟩

/-- A run whose parameters are refused, and one with the parameters of a run that is told
    nothing. -/
theorem exists_result_single :
    (∃ cause events, solve? (fun _ => 0) (Problem.single Float)
      { (default : Params Float) with recordEvery := 0 } = .ok ⟨.error cause, events⟩) ∧
    ∃ sol events, solve? (fun _ => 0) (Problem.single Float) default = .ok ⟨.ok sol, events⟩ := by
  have hA : SparseMatrix.ofTriplets? 1 1 [⟨0, 0, 1⟩] = .ok (Problem.single Float).matrix :=
    SparseMatrix.ofTriplets?_eq (by simp) rfl
  have hp : Problem.ofData? #[1] (Problem.single Float).matrix #[1] 1 #[0] #[1 + 1] =
      .ok (Problem.single Float) :=
    (Problem.accepted_iff_emptyBounds? (p := Problem.single Float)).2 (by decide +kernel)
  constructor
  · obtain ⟨result, events, -, hsolve, hrefused, -⟩ := solve?_total hA (.inl rfl) hp (fun _ => 0)
      { (default : Params Float) with recordEvery := 0 }
    obtain ⟨cause, rfl⟩ := hrefused.2 (.inl rfl)
    exact ⟨cause, events, hsolve⟩
  · have hacc : (default : Params Float).Accepted 1 1 :=
      ⟨by decide, by decide, by decide +kernel, nofun, nofun, nofun⟩
    obtain ⟨result, events, -, hsolve, hrefused, hsolved, -⟩ :=
      solve?_total hA (.inl rfl) hp (fun _ => 0) default
    obtain ⟨sol, rfl⟩ := hsolved.2 fun h => Params.not_accepted_iff.2 (hrefused.1 h) hacc
    exact ⟨sol, events, hsolve⟩

end HybridGradient
