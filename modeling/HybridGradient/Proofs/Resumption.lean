import HybridGradient.Proofs.Convergence
import HybridGradient.Proofs.Equivalence
import HybridGradient.Proofs.Findings
import HybridGradient.Proofs.Schedule

/-!
# Runs that are resumed

The next iterate depends on the one before and on nothing else that a run keeps. So a run can be
cut at its limit and resumed from what it returned, if scaling gives back the very iterate at
which it was cut. In exact arithmetic it does, with infinite and undefined components as well,
since all factors are positive real numbers. The scaled problem and the step size are made again
as they were, and the records are due at the same iterates if the cut is at a multiple of their
period.

* `Run.iterate_add`: steps after steps;
* `Run.Resumes`, `Record.Continues`: a run that goes on where another one is after a number of
  steps, and a record that it makes of an iterate of the other one;
* `Params.start_resumed`: scaling gives back the iterate at which a run was cut;
* `solve?_resumed`: a run that is resumed finds what it would have found without the cut.
-/

namespace HybridGradient

open Extended

/-! ### Steps after steps -/

section

variable {α : Type} [Scalar α]

namespace Run

theorem iterate_add (run : Run α) (z : Iterate α) (first i : ℕ) :
    run.iterate z (first + i) = run.iterate (run.iterate z first) i := by
  induction i with
  | zero => rfl
  | succ i ih => rw [← Nat.add_assoc, iterate, iterate, ih]

theorem work_add (first i : ℕ) : work (first + i) = (· + passesPerStep)^[first] (work i) := by
  induction first with
  | zero => rw [Nat.zero_add, Function.iterate_zero_apply]
  | succ first ih => rw [Nat.succ_add, work, ih, Function.iterate_succ_apply']

end Run

/-- A record, and the one that is made of the same iterate by a run that has taken `first` more
    steps before. They differ in the counts of steps and of work and in the seconds, and before
    the first step in what is the last move. -/
structure Record.Continues (first : ℕ) (r whole : Record α) : Prop where
  iteration : whole.iteration = first + r.iteration
  passes : whole.passes = (· + passesPerStep)^[first] r.passes
  passes_exact : first + r.iteration ≤ 2 ^ 53 →
    Extended.ofBinary64 whole.passes = .real (2 * first) + Extended.ofBinary64 r.passes
  error : whole.error = r.error
  primalObjective : whole.primalObjective = r.primalObjective
  dualObjective : whole.dualObjective = r.dualObjective
  gap : whole.gap = r.gap
  primalResidual : whole.primalResidual = r.primalResidual
  dualResidual : whole.dualResidual = r.dualResidual
  primalMove : r.iteration ≠ 0 → whole.primalMove = r.primalMove
  dualMove : r.iteration ≠ 0 → whole.dualMove = r.dualMove

/-- Two runs take the same steps and examine alike, up to limits of their own. -/
structure Run.Alike (run whole : Run α) : Prop where
  scaled : run.scaled = whole.scaled
  stepSize : run.stepSize = whole.stepSize
  recordEvery : run.par.recordEvery = whole.par.recordEvery
  tolerance : run.par.tolerance = whole.par.tolerance

namespace Run.Alike

variable {run whole : Run α}

theorem iterate (h : run.Alike whole) (z : Iterate α) (i : ℕ) :
    whole.iterate z i = run.iterate z i := by
  apply iterate_congr
  rw [h.scaled, h.stepSize]

theorem error (h : run.Alike whole) (z : Iterate α) (i : ℕ) :
    (whole.record z i).error = (run.record z i).error := by
  simp only [Run.record, Scaled.evaluate, h.iterate, h.scaled]

/-- A run that ends at its limit without being optimal ends at an iterate before which no
    other run stops that has a greater limit. -/
theorem not_stops (h : run.Alike whole) (hlimit : run.limit ≤ whole.limit) {z : Iterate α} {k : ℕ}
    (hk : IsLeast {i | run.Stops z i} k) (hstatus : run.statusAt z k = .iterationLimit) :
    k = run.limit ∧ ∀ i < k, ¬ whole.Stops z i := by
  rw [statusAt_eq_iterationLimit_iff] at hstatus
  obtain rfl : k = run.limit := hk.1.resolve_right fun hconverged => hstatus hconverged.2
  refine ⟨rfl, fun i hi hstops => ?_⟩
  rcases hstops with rfl | ⟨hdue, herror⟩
  · exact absurd hi (not_lt.2 hlimit)
  · rw [h.error, ← h.tolerance] at herror
    rw [← h.recordEvery] at hdue
    exact absurd (hk.2 (.inr ⟨hdue, herror⟩)) (not_le.2 hi)

end Run.Alike

/-- A run goes on where another one is after a number of steps, which is a multiple of the
    period of the records. -/
structure Run.Resumes (run whole : Run α) (first : ℕ) : Prop extends run.Alike whole where
  limit : whole.limit = first + run.limit
  dvd : whole.par.recordEvery.toNat ∣ first

namespace Run.Resumes

variable {run whole : Run α} {first : ℕ}

theorem iterate (h : run.Resumes whole first) (z : Iterate α) (i : ℕ) :
    whole.iterate z (first + i) = run.iterate (whole.iterate z first) i := by
  rw [whole.iterate_add, h.toAlike.iterate]

/-- The first iterate of the resumed run has no displacement that led to it. -/
theorem move (h : run.Resumes whole first) (z : Iterate α) {i : ℕ} (hi : i ≠ 0) :
    whole.move z (first + i) = run.move (whole.iterate z first) i := by
  obtain ⟨i, rfl⟩ := Nat.exists_eq_succ_of_ne_zero hi
  rw [Nat.add_succ, Run.move, Run.move, h.iterate, ← h.iterate z (i + 1)]
  rfl

theorem error (h : run.Resumes whole first) (z : Iterate α) (i : ℕ) :
    (whole.record z (first + i)).error = (run.record (whole.iterate z first) i).error := by
  simp only [Run.record, Scaled.evaluate, h.iterate, h.scaled]

theorem record (h : run.Resumes whole first) (z : Iterate α) (i : ℕ) :
    (run.record (whole.iterate z first) i).Continues first (whole.record z (first + i)) where
  iteration := rfl
  passes := work_add first i
  passes_exact := by
    intro (hle : first + i ≤ 2 ^ 53)
    change Extended.ofBinary64 (work (first + i)) = _ + Extended.ofBinary64 (work i)
    rw [ofBinary64_work hle, ofBinary64_work (le_of_add_le_right hle), add_real, Nat.cast_add,
      mul_add]
  error := h.error z i
  primalObjective := by simp only [Run.record, Scaled.evaluate, h.iterate, h.scaled]
  dualObjective := by simp only [Run.record, Scaled.evaluate, h.iterate, h.scaled]
  gap := by simp only [Run.record, Scaled.evaluate, h.iterate, h.scaled]
  primalResidual := by simp only [Run.record, Scaled.evaluate, h.iterate, h.scaled]
  dualResidual := by simp only [Run.record, Scaled.evaluate, h.iterate, h.scaled]
  primalMove := by
    intro (hi : i ≠ 0)
    simp only [Run.record, Scaled.evaluate, h.move z hi, h.scaled]
  dualMove := by
    intro (hi : i ≠ 0)
    simp only [Run.record, Scaled.evaluate, h.move z hi, h.scaled]

omit [Scalar α] in
theorem recorded_iff (h : run.Resumes whole first) (i : ℕ) :
    whole.Recorded (first + i) ↔ run.Recorded i := by
  rw [Recorded, Recorded, h.recordEvery, Nat.dvd_add_right h.dvd, h.limit,
    Nat.add_left_cancel_iff]

theorem stops_iff (h : run.Resumes whole first) (z : Iterate α) (i : ℕ) :
    whole.Stops z (first + i) ↔ run.Stops (whole.iterate z first) i := by
  rw [Run.stops_iff, Run.stops_iff, h.recorded_iff, h.error, h.tolerance, h.limit,
    Nat.add_left_cancel_iff]

theorem statusAt (h : run.Resumes whole first) (z : Iterate α) (i : ℕ) :
    whole.statusAt z (first + i) = run.statusAt (whole.iterate z first) i := by
  rw [Run.statusAt, Run.statusAt, h.error, h.tolerance]

/-- A run that did not stop before the cut ends where the resumed one does. -/
theorem isLeast (h : run.Resumes whole first) {z : Iterate α}
    (hfirst : ∀ i < first, ¬ whole.Stops z i) {k : ℕ}
    (hk : IsLeast {i | run.Stops (whole.iterate z first) i} k) :
    IsLeast {i | whole.Stops z i} (first + k) := by
  refine ⟨(h.stops_iff z k).2 hk.1, fun i hi => ?_⟩
  have hle : first ≤ i := not_lt.1 fun hlt => hfirst i hlt hi
  obtain ⟨j, rfl⟩ := Nat.exists_eq_add_of_le hle
  exact Nat.add_le_add_left (hk.2 ((h.stops_iff z j).1 hi)) first

/-- The records of the resumed run are those from the cut on. -/
theorem recordsBefore (h : run.Resumes whole first) (z : Iterate α) (n : ℕ) :
    List.Forall₂ (Record.Continues first) (run.recordsBefore (whole.iterate z first) n)
      ((whole.recordsBefore z (first + n)).filter (first ≤ ·.iteration)) := by
  induction n with
  | zero =>
    have hnone : (whole.recordsBefore z first).filter (first ≤ ·.iteration) = [] := by
      simpa using fun r hr => iteration_lt_of_mem_recordsBefore hr
    rw [Nat.add_zero, hnone]
    exact .nil
  | succ n ih =>
    rw [← Nat.add_assoc, recordsBefore_succ, recordsBefore_succ, List.filter_append]
    apply List.rel_append ih
    by_cases hn : run.Recorded n
    · have hkeep : [whole.record z (first + n)].filter (first ≤ ·.iteration) =
          [whole.record z (first + n)] := by
        simp [(h.record z n).iteration]
      rw [if_pos hn, if_pos ((h.recorded_iff n).2 hn), hkeep]
      exact .cons (h.record z n) .nil
    · rw [if_neg hn, if_neg (mt (h.recorded_iff n).1 hn)]
      exact .nil

end Run.Resumes

/-- The parameters under which a run goes on from what was found. -/
def Params.resumed (par : Params α) (sol : Solution α) (limit : UInt64) : Params α :=
  { par with
    startPrimal := some sol.primal, startDual := some sol.dual, iterationLimit := limit }

end

/-! ### What is returned is where a run goes on -/

/-- The factors that balance a problem are positive real numbers, be its data finite or not. -/
theorem Scaled.exists_factors_balanced (p : Problem Extended) (means largests : ℕ) (least : ℝ) :
    ∃ (r : Fin p.rows → ℝ) (v : Fin p.cols → ℝ), (∀ i, 0 < r i) ∧ (∀ j, 0 < v j) ∧
      (balanced p means largests (.real least)).constraintFactors = Vec.real r ∧
      (balanced p means largests (.real least)).variableFactors = Vec.real v := by
  rw [balanced]
  split
  · exact ⟨1, 1, fun _ => one_pos, fun _ => one_pos, Vec.ones_eq _, Vec.ones_eq _⟩
  · obtain ⟨r, v, h⟩ := Factors.exists_positive_balancing (A := p.matrix) (m := p.rows)
      (n := p.cols) rfl rfl means largests least
    exact ⟨r, v, h.row_pos, h.col_pos, h.rows, h.cols⟩

theorem Params.exists_factors {par : Params Extended} (p : Problem Extended) {least : ℝ}
    (hleast : par.leastFactor = .real least) :
    ∃ (r : Fin p.rows → ℝ) (v : Fin p.cols → ℝ), (∀ i, 0 < r i) ∧ (∀ j, 0 < v j) ∧
      (par.scaled p).1.constraintFactors = Vec.real r ∧
      (par.scaled p).1.variableFactors = Vec.real v := by
  rw [scaled]
  split
  · rw [hleast]
    exact Scaled.exists_factors_balanced p _ _ least
  · exact ⟨1, 1, fun _ => one_pos, fun _ => one_pos, Vec.ones_eq _, Vec.ones_eq _⟩

/-- Parameters under which a run was cut are accepted when it is resumed. -/
theorem Params.Accepted.resumed {α : Type} [Scalar α] {par : Params α} {rows cols : ℕ}
    (h : par.Accepted rows cols) {sol : Solution α} (hprimal : sol.primal.size = cols)
    (hdual : sol.dual.size = rows) (limit : UInt64) :
    (par.resumed sol limit).Accepted rows cols :=
  ⟨h.recordEvery, h.printEvery, h.tolerance, h.stepSize,
    fun x hx => by rwa [← Option.some.inj hx], fun y hy => by rwa [← Option.some.inj hy]⟩

/-- Scaling what a run returned gives back the iterate at which it ended, and so a run that is
    resumed from there starts at this iterate. -/
theorem Params.start_resumed (par : Params Extended) {p : Problem Extended} {least : ℝ}
    (hleast : par.leastFactor = .real least) {clock : ℕ → Float} {sol : Solution Extended}
    {events : Array (Event Extended)} (hsolve : solve? clock p par = .ok ⟨.ok sol, events⟩) :
    ∃ k, IsLeast {i | (par.run clock p).Stops (par.start p) i} k ∧
      sol.status = (par.run clock p).statusAt (par.start p) k ∧
      ∀ limit, (par.resumed sol limit).Accepted p.rows p.cols ∧
        (par.resumed sol limit).start p = (par.run clock p).iterate (par.start p) k := by
  obtain ⟨hacc, k, last, hk, hlast, rfl⟩ := exists_reached_of_solve? hsolve
  obtain ⟨r, v, hr, hv, hrows, hcols⟩ := par.exists_factors p hleast
  have hfits : last.iterate.Fits p.rows p.cols := hlast.iterate ▸ hacc.fits_iterate clock k
  refine ⟨k, hk, rfl, fun limit => ?_⟩
  rw [← hlast.iterate]
  refine ⟨hacc.resumed ?_ ?_ limit, ?_⟩
  · rw [Scaled.unscalePrimal, Vec.size_divide, hcols, Vec.size_real, hfits.primal, Nat.min_self]
  · rw [Scaled.unscaleDual, Vec.size_divide, hrows, Vec.size_real, hfits.dual, Nat.min_self]
  · change Iterate.mk (Scaled.image (par.scaled p).1.variableFactors (Vec.divide _ _))
      (Scaled.image (par.scaled p).1.constraintFactors (Vec.divide _ _)) = last.iterate
    rw [hrows, hcols, (divide_image_and_image_divide hv hfits.primal).2,
      (divide_image_and_image_divide hr hfits.dual).2]

/-! ### The whole run and the resumed one -/

/-- A run that ended at its limit, which its period divides, is resumed from what it returned.
    The resumed run ends in the same way and with the same solution as a run that has the sum of
    both limits, and its records are the records of that run from the cut on. Neither the data
    nor the starting vectors need to be finite. -/
theorem solve?_resumed {p : Problem Extended} {par : Params Extended} {least : ℝ}
    (hleast : par.leastFactor = .real least) {first second : UInt64}
    (hlimit : par.iterationLimit.toNat = first.toNat + second.toNat)
    (hdvd : par.recordEvery.toNat ∣ first.toNat) {clock : ℕ → Float} {sol : Solution Extended}
    {events : Array (Event Extended)}
    (hsolve : solve? clock p { par with iterationLimit := first } = .ok ⟨.ok sol, events⟩)
    (hstatus : sol.status = .iterationLimit) (clock' clock'' : ℕ → Float) :
    ∃ resumed events' whole events'',
      solve? clock' p (par.resumed sol second) = .ok ⟨.ok resumed, events'⟩ ∧
      solve? clock'' p par = .ok ⟨.ok whole, events''⟩ ∧
      resumed.status = whole.status ∧ resumed.primal = whole.primal ∧
      resumed.dual = whole.dual ∧
      List.Forall₂ (Record.Continues first.toNat) resumed.table.records.toList
        (whole.table.records.toList.filter (first.toNat ≤ ·.iteration)) := by
  let cut : Params Extended := { par with iterationLimit := first }
  have hcut : cut.error? p.rows p.cols = none := error?_eq_none_of_solve? hsolve
  have hacc : par.Accepted p.rows p.cols := Params.accepted_of_error?_eq_none hcut
  -- The run that is cut ends at its limit, before which the whole run does not stop.
  obtain ⟨k, hk, hat, hresumed⟩ := cut.start_resumed hleast hsolve
  have halike : (cut.run clock p).Alike (par.run clock'' p) := ⟨rfl, rfl, rfl, rfl⟩
  have hle : first.toNat ≤ par.iterationLimit.toNat := hlimit ▸ Nat.le_add_right _ _
  obtain ⟨rfl, hbefore⟩ := halike.not_stops hle hk (hat.symm.trans hstatus)
  -- The resumed run starts where the whole run is then.
  have hacc' : (par.resumed sol second).Accepted p.rows p.cols := (hresumed second).1
  have hstart : (par.resumed sol second).start p =
      (par.run clock'' p).iterate (par.start p) first.toNat :=
    (hresumed second).2.trans (halike.iterate _ _).symm
  have hresumes : ((par.resumed sol second).run clock' p).Resumes (par.run clock'' p)
      first.toNat := ⟨⟨rfl, rfl, rfl, rfl⟩, hlimit, hdvd⟩
  obtain ⟨k', last', hk', hlast', -, events', hsolve'⟩ := solve?_eq clock' hacc'.error?_eq_none
  obtain ⟨k'', last'', hk'', hlast'', -, events'', hsolve''⟩ :=
    solve?_eq clock'' hacc.error?_eq_none
  rw [hstart] at hk' hlast' hsolve'
  obtain rfl : k'' = first.toNat + k' := hk''.unique (hresumes.isLeast hbefore hk')
  have hiterate : last''.iterate = last'.iterate := by
    rw [hlast''.iterate, hresumes.iterate, hlast'.iterate]
  refine ⟨_, events', _, events'', hsolve', hsolve'', (hresumes.statusAt _ k').symm, ?_, ?_, ?_⟩
  · rw [hiterate]
    rfl
  · rw [hiterate]
    rfl
  · rw [hlast'.records, hlast''.records]
    exact hresumes.recordsBefore _ (k' + 1)

/-- The run on the small program that takes one step ends at its limit. -/
theorem solve?_oneStep (clock : ℕ → Float) : ∃ (sol : Solution Extended) (events : Array _),
    solve? clock .blend .oneStep = .ok ⟨.ok sol, events⟩ ∧
      sol.status = .iterationLimit ∧ ∃ r ∈ sol.table.records, r.iteration ≠ 0 := by
  obtain ⟨k, last, hk, hlast, -, events, hsolve⟩ :=
    solve?_eq clock Params.accepted_oneStep.error?_eq_none
  have hle : k ≤ 1 := hk.2 (.inl rfl)
  have herror := Params.not_error_le_oneStep clock hle
  obtain rfl : k = 1 := hk.1.resolve_right fun hconverged => herror hconverged.2
  exact ⟨_, events, hsolve, (Run.statusAt_eq_iterationLimit_iff 1).2 herror,
    _, Array.mem_of_back? (hlast.last? hk.1), one_ne_zero⟩

/-- A balanced run on the small program that is cut after its first step, and resumed for a
    second one. -/
theorem exists_resumed_blend :
    ∃ (par : Params Extended) (sol : Solution Extended) (events : Array (Event Extended)),
      par.rescale = true ∧ par.leastFactor = .real (1 / 2) ∧
      par.iterationLimit.toNat = (1 : UInt64).toNat + (1 : UInt64).toNat ∧
      par.recordEvery.toNat ∣ (1 : UInt64).toNat ∧
      solve? (fun _ => 0) .blend { par with iterationLimit := 1 } = .ok ⟨.ok sol, events⟩ ∧
      sol.status = .iterationLimit ∧
      ∃ resumed events' whole events'',
        solve? (fun _ => 1) .blend (par.resumed sol 1) = .ok ⟨.ok resumed, events'⟩ ∧
        solve? (fun _ => 2) .blend par = .ok ⟨.ok whole, events''⟩ ∧
        resumed.status = whole.status ∧ resumed.primal = whole.primal ∧
        resumed.dual = whole.dual ∧
        List.Forall₂ (Record.Continues 1) resumed.table.records.toList
          (whole.table.records.toList.filter (1 ≤ ·.iteration)) := by
  obtain ⟨sol, events, hsolve, hstatus, -⟩ := solve?_oneStep fun _ => 0
  let par : Params Extended := { Params.oneStep with iterationLimit := 2 }
  have hcut : solve? (fun _ => 0) .blend { par with iterationLimit := 1 } =
    .ok ⟨.ok sol, events⟩ := hsolve
  exact ⟨par, sol, events, rfl, rfl, rfl, ⟨1, rfl⟩, hcut, hstatus,
    solve?_resumed rfl rfl ⟨1, rfl⟩ hcut hstatus _ _⟩

end HybridGradient
