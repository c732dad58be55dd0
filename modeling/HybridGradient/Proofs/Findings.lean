import HybridGradient.Proofs.Run
import Mathlib.Order.Bounds.Basic

/-!
# What a run finds, apart from time

The seconds in the records of a run depend on the clock, and no two runs share a clock. What is
left without them can be compared: runs that keep the same schedule and make the same records
end with the same iteration, in the same way, and with the same table.

* `Outcome.findings`: what a run finds, without the seconds;
* `Run.Lockstep`: two runs that make the same records on the same schedule;
* `Run.Lockstep.exists_solve?`: they find the same.
-/

namespace HybridGradient

variable {α : Type}

/-! ### Without the seconds -/

/-- A record without the seconds. -/
def Record.untimed (r : Record α) : Record α := { r with elapsed := 0 }

/-- A table without the seconds. -/
def Table.untimed (t : Table α) : Table α where
  records := t.records.map Record.untimed
  increasing := by
    rw [Array.toList_map, List.pairwise_map]
    exact t.increasing

/-- A solution without the seconds in its table. -/
def Solution.untimed (sol : Solution α) : Solution α := { sol with table := sol.table.untimed }

/-- What a run finds, or why its parameters are refused, without the seconds. -/
def Outcome.findings (o : Outcome α) : Except ParamError (Solution α) :=
  o.result.map Solution.untimed

/-- A run that finds something is left with a solution. -/
theorem Outcome.exists_of_findings {x : Except Fault (Outcome α)} {found : Solution α}
    (h : x.map findings = .ok (.ok found)) :
    ∃ sol events, x = .ok ⟨.ok sol, events⟩ ∧ sol.untimed = found := by
  cases x with
  | error fault => cases h
  | ok o =>
    obtain ⟨_ | sol, events⟩ := o
    · cases h
    · exact ⟨sol, events, rfl, Except.ok.inj (Except.ok.inj h)⟩

/-- Tables of the same records are the same. -/
theorem Table.untimed_eq {t t' : Table α}
    (h : t.records.toList.map Record.untimed = t'.records.toList.map Record.untimed) :
    t.untimed = t'.untimed := by
  have hrecords : t.records.map Record.untimed = t'.records.map Record.untimed := by
    apply Array.toList_inj.1
    simpa using h
  simp only [untimed, hrecords]

variable [Scalar α]

/-! ### Runs that take the same steps -/

namespace Run

variable {run run' : Run α}

theorem untimed_record (z : Iterate α) (i : ℕ) : (run.record z i).untimed =
    run.scaled.evaluate (run.iterate z i) (run.move z i) i (work i) 0 := rfl

/-- The iterates depend on the step alone. -/
theorem iterate_congr
    (h : run.scaled.problem.step run.stepSize = run'.scaled.problem.step run'.stepSize)
    (z : Iterate α) (i : ℕ) : run.iterate z i = run'.iterate z i := by
  induction i with
  | zero => rfl
  | succ i ih => rw [iterate, iterate, ih, h]

theorem move_congr
    (h : run.scaled.problem.step run.stepSize = run'.scaled.problem.step run'.stepSize)
    (hrows : run.scaled.problem.rows = run'.scaled.problem.rows)
    (hcols : run.scaled.problem.cols = run'.scaled.problem.cols) (z : Iterate α) (i : ℕ) :
    run.move z i = run'.move z i := by
  cases i with
  | zero => rw [move, move, hrows, hcols]
  | succ i => rw [move, move, iterate_congr h, iterate_congr h]

end Run

/-! ### Runs in lockstep -/

/-- Two runs keep the same schedule, have the same tolerance, and make the same records apart
    from the seconds. -/
structure Run.Lockstep (run run' : Run α) (z z' : Iterate α) : Prop where
  recordEvery : run.par.recordEvery = run'.par.recordEvery
  iterationLimit : run.par.iterationLimit = run'.par.iterationLimit
  tolerance : run.par.tolerance = run'.par.tolerance
  record : ∀ i, (run.record z i).untimed = (run'.record z' i).untimed

namespace Run.Lockstep

variable {run run' : Run α} {z z' : Iterate α}

theorem error (h : run.Lockstep run' z z') (i : ℕ) :
    (run.record z i).error = (run'.record z' i).error := by
  have hrecord := congrArg Record.error (h.record i)
  exact hrecord

theorem stops_iff (h : run.Lockstep run' z z') (i : ℕ) : run.Stops z i ↔ run'.Stops z' i := by
  simp only [Stops, limit, h.recordEvery, h.iterationLimit, h.tolerance, h.error]

theorem statusAt (h : run.Lockstep run' z z') (i : ℕ) :
    run.statusAt z i = run'.statusAt z' i := by
  simp only [Run.statusAt, h.error, h.tolerance]

theorem recordsBefore (h : run.Lockstep run' z z') (n : ℕ) :
    (run.recordsBefore z n).map Record.untimed = (run'.recordsBefore z' n).map Record.untimed := by
  simp only [Run.recordsBefore, Recorded, limit, h.recordEvery, h.iterationLimit, List.map_map]
  congr 1
  funext i
  exact h.record i

/-- Runs in lockstep end with the same iteration, and their results differ in nothing but the
    seconds, and in the iterate that is mapped back. -/
theorem exists_solve? {par par' : Params α} {p q : Problem α} {clock clock' : ℕ → Float}
    (h : (par.run clock p).Lockstep (par'.run clock' q) (par.start p) (par'.start q))
    (hpar : par.error? p.rows p.cols = none) (hpar' : par'.error? q.rows q.cols = none) :
    ∃ k sol sol' events events', solve? clock p par = .ok ⟨.ok sol, events⟩ ∧
      solve? clock' q par' = .ok ⟨.ok sol', events'⟩ ∧
      (⟨sol.primal, sol.dual⟩ : Iterate α) = (par.run clock p).original (par.start p) k ∧
      (⟨sol'.primal, sol'.dual⟩ : Iterate α) = (par'.run clock' q).original (par'.start q) k ∧
      sol.table.untimed = sol'.table.untimed ∧ sol.status = sol'.status := by
  obtain ⟨k, last, hk, hlast, -, events, hsolve⟩ := solve?_eq clock hpar
  obtain ⟨k', last', hk', hlast', -, events', hsolve'⟩ := solve?_eq clock' hpar'
  obtain rfl : k' = k := by
    rw [show {i | (par.run clock p).Stops (par.start p) i} =
      {i | (par'.run clock' q).Stops (par'.start q) i} from Set.ext h.stops_iff] at hk
    exact hk'.unique hk
  refine ⟨k', _, _, events, events', hsolve, hsolve', ?_, ?_, ?_, h.statusAt k'⟩
  · rw [original, ← hlast.iterate]
    rfl
  · rw [original, ← hlast'.iterate]
    rfl
  · apply Table.untimed_eq
    rw [hlast.records, hlast'.records, h.recordsBefore]

/-- Runs in lockstep that map the same iterates back find the same. -/
theorem exists_findings {par par' : Params α} {p q : Problem α} {clock clock' : ℕ → Float}
    (h : (par.run clock p).Lockstep (par'.run clock' q) (par.start p) (par'.start q))
    (horiginal : ∀ i, (par.run clock p).original (par.start p) i =
      (par'.run clock' q).original (par'.start q) i)
    (hpar : par.error? p.rows p.cols = none) (hpar' : par'.error? q.rows q.cols = none) :
    ∃ sol, (solve? clock p par).map Outcome.findings = .ok (.ok sol) ∧
      (solve? clock' q par').map Outcome.findings = .ok (.ok sol) := by
  obtain ⟨k, sol, sol', events, events', hsolve, hsolve', hsol, hsol', htable, hstatus⟩ :=
    h.exists_solve? hpar hpar'
  refine ⟨sol.untimed, by rw [hsolve]; rfl, ?_⟩
  have huntimed : sol'.untimed = sol.untimed := by
    rw [← horiginal, ← hsol] at hsol'
    obtain ⟨hprimal, hdual⟩ := Iterate.mk.inj hsol'
    simp only [Solution.untimed, hprimal, hdual, htable, hstatus]
  rw [hsolve', ← huntimed]
  rfl

end Run.Lockstep

end HybridGradient
