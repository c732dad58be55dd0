import HybridGradient.Solve
import Mathlib.Order.Bounds.Defs
import Mathlib.Tactic.Common

/-!
# The course of a run

What a run goes through, said without its loop: the iterates are those of the
step, repeated from the start, and an iterate together with the displacement
that led to it has a record. A run is decided by these alone.

* `Run.iterate`, `Run.move`, `Run.work`, `Run.record`: the iterate after a number
  of steps, what led to it, and what is to be known of it;
* `Run.Recorded`, `Run.Stops`: the iterations that are recorded, and those with
  which a run may end;
* `Run.loop?_eq`: the loop ends with the first iteration that stops it, has
  recorded those that are recorded up to it, and has called its stepper once for
  each iteration before;
* `solve?_eq`: what a run on a problem finds, if its parameters are accepted.
-/

namespace HybridGradient

variable {α : Type} [Scalar α]

/-! ### Sizes -/

/-- An iterate has a component for each variable and each constraint. -/
structure Iterate.Fits (z : Iterate α) (rows cols : Nat) : Prop where
  primal : z.primal.size = cols
  dual : z.dual.size = rows

theorem Iterate.fits_zeros (rows cols : Nat) : (zeros rows cols : Iterate α).Fits rows cols :=
  ⟨Vec.size_zeros _, Vec.size_zeros _⟩

theorem Iterate.Fits.displacement {w z : Iterate α} {rows cols : Nat} (hw : w.Fits rows cols)
    (hz : z.Fits rows cols) : (Iterate.displacement w z).Fits rows cols := by
  constructor
  · rw [Iterate.displacement, Vec.size_add, hz.primal, hw.primal, Nat.min_self]
  · rw [Iterate.displacement, Vec.size_add, hz.dual, hw.dual, Nat.min_self]

theorem Problem.fits_step (p : Problem α) (t : α) {z : Iterate α} (h : z.Fits p.rows p.cols) :
    (p.step t z).Fits p.rows p.cols :=
  ⟨(p.size_step t h.primal h.dual).1, (p.size_step t h.primal h.dual).2⟩

/-- A scaled problem has factors for each of its variables and constraints. -/
structure Scaled.Fits (s : Scaled α) : Prop where
  variableFactors : s.variableFactors.size = s.problem.cols
  constraintFactors : s.constraintFactors.size = s.problem.rows

theorem Scaled.fits_identity (p : Problem α) : (identity p).Fits :=
  ⟨Vec.size_ones _, Vec.size_ones _⟩

theorem Scaled.fits_balanced (p : Problem α) (means largests : Nat) (least : α) :
    (balanced p means largests least).Fits := by
  rw [balanced]
  split
  · exact fits_identity p
  · exact ⟨(Factors.size_balancing _ _ _ _).2, (Factors.size_balancing _ _ _ _).1⟩

/-- Balancing keeps the shape. -/
theorem Scaled.shape_balanced (p : Problem α) (means largests : Nat) (least : α) :
    (balanced p means largests least).problem.rows = p.rows ∧
      (balanced p means largests least).problem.cols = p.cols := by
  rw [balanced]
  split
  · exact ⟨rfl, rfl⟩
  · exact ⟨rfl, rfl⟩

/-! ### Guards that pass -/

theorem Fault.ok_bind {β γ : Type} (b : β) (f : β → Except Fault γ) :
    (Except.ok b : Except Fault β) >>= f = f b := rfl

theorem Fault.checkLength_self (n : Nat) : Fault.checkLength n n = .ok () := if_pos rfl

theorem divides?_eq {period : Nat} (h : period ≠ 0) (n : Nat) :
    divides? period n = .ok (decide (period ∣ n)) := by
  rw [divides?, if_neg h]
  congr 1
  rw [Bool.eq_iff_iff, beq_iff_eq, decide_eq_true_iff, Nat.dvd_iff_mod_eq_zero]

theorem Problem.step?_eq (p : Problem α) (t : α) {z : Iterate α} (h : z.Fits p.rows p.cols) :
    p.step? t z = .ok (p.step t z) := by
  rw [step?, h.primal, h.dual, Fault.checkLength_self, Fault.checkLength_self]
  rfl

theorem Iterate.displacement?_eq {w z : Iterate α} {rows cols : Nat} (hw : w.Fits rows cols)
    (hz : z.Fits rows cols) : Iterate.displacement? w z = .ok (Iterate.displacement w z) := by
  rw [Iterate.displacement?, hw.primal, hw.dual, hz.primal, hz.dual, Fault.checkLength_self,
    Fault.checkLength_self]
  rfl

theorem Scaled.evaluate?_eq {s : Scaled α} (hs : s.Fits) {z move : Iterate α}
    (hz : z.Fits s.problem.rows s.problem.cols) (hm : move.Fits s.problem.rows s.problem.cols)
    (i : Nat) (passes elapsed : Float) :
    s.evaluate? z move i passes elapsed = .ok (s.evaluate z move i passes elapsed) := by
  rw [evaluate?, hs.variableFactors, hs.constraintFactors, hz.primal, hz.dual, hm.primal, hm.dual]
  simp only [Fault.checkLength_self]
  rfl

omit [Scalar α] in
/-- A record is appended if it is of a later iteration than all others. -/
theorem Table.push?_eq {t : Table α} {r : Record α}
    (h : ∀ r' ∈ t.records.toList, r'.iteration < r.iteration) :
    ∃ t', t.push? r = .ok t' ∧ t'.records.toList = t.records.toList ++ [r] := by
  rw [push?]
  split
  · exact ⟨_, rfl, Array.toList_push⟩
  · rename_i last hlast
    have hmem : last ∈ t.records.toList := by
      rw [last?, ← Array.getLast?_toList] at hlast
      exact List.mem_of_getLast? hlast
    rw [dif_pos (h last hmem)]
    exact ⟨_, rfl, Array.toList_push⟩

namespace Run

/-! ### What a run goes through -/

variable (run : Run α) (z : Iterate α)

/-- The iterate after a number of steps from a starting iterate. -/
def iterate : Nat → Iterate α
  | 0 => z
  | i + 1 => run.scaled.problem.step run.stepSize (iterate i)

/-- The displacement that led to the iterate after a number of steps, which is zero
    before the first one. -/
def move : Nat → Iterate α
  | 0 => .zeros run.scaled.problem.rows run.scaled.problem.cols
  | i + 1 => .displacement (run.iterate z i) (run.iterate z (i + 1))

/-- The iterate after a number of steps in the space of the given problem. -/
def original (i : Nat) : Iterate α :=
  ⟨run.scaled.unscalePrimal (run.iterate z i).primal, run.scaled.unscaleDual (run.iterate z i).dual⟩

/-- The displacement that led to the iterate after a number of steps in the space of the
    given problem. -/
def originalMove : Nat → Iterate α
  | 0 => .zeros run.scaled.problem.rows run.scaled.problem.cols
  | i + 1 => .displacement (run.original z i) (run.original z (i + 1))

/-- The work of a number of steps, as it is summed up. -/
def work : Nat → Float
  | 0 => 0
  | i + 1 => work i + passesPerStep

/-- The record of the iterate after a number of steps. -/
def record (i : Nat) : Record α :=
  run.scaled.evaluate (run.iterate z i) (run.move z i) i (work i) (run.clock i)

/-- The greatest number of steps. -/
def limit : Nat := run.par.iterationLimit.toNat

/-- The iterate after a number of steps is recorded. -/
def Recorded (i : Nat) : Prop := run.par.recordEvery.toNat ∣ i ∨ i = run.limit

/-- A run that has come to a number of steps ends there. -/
def Stops (i : Nat) : Prop :=
  i = run.limit ∨
    run.par.recordEvery.toNat ∣ i ∧ (run.record z i).error ≤ run.par.tolerance

instance (i : Nat) : Decidable (run.Recorded i) := inferInstanceAs (Decidable (_ ∨ _))

/-- The records of the first iterates that are recorded. -/
def recordsBefore (n : Nat) : List (Record α) :=
  ((List.range n).filter (run.Recorded ·)).map (run.record z)

/-- How a run ends that stops after a number of steps. -/
def statusAt (i : Nat) : Status :=
  if (run.record z i).error ≤ run.par.tolerance then .optimal else .iterationLimit

variable {run z}

theorem stops_iff (i : Nat) : run.Stops z i ↔
    i = run.limit ∨ run.Recorded i ∧ (run.record z i).error ≤ run.par.tolerance := by
  rw [Stops, Recorded]
  tauto

theorem statusAt_eq_optimal_iff (i : Nat) :
    run.statusAt z i = .optimal ↔ (run.record z i).error ≤ run.par.tolerance := by
  rw [statusAt]
  by_cases h : (run.record z i).error ≤ run.par.tolerance
  · rw [if_pos h]
    exact iff_of_true rfl h
  · rw [if_neg h]
    exact iff_of_false Status.noConfusion h

theorem statusAt_eq_iterationLimit_iff (i : Nat) :
    run.statusAt z i = .iterationLimit ↔ ¬ (run.record z i).error ≤ run.par.tolerance := by
  rw [statusAt]
  by_cases h : (run.record z i).error ≤ run.par.tolerance
  · rw [if_pos h]
    exact iff_of_false Status.noConfusion (not_not.2 h)
  · rw [if_neg h]
    exact iff_of_true rfl h

theorem recordsBefore_succ (n : Nat) : run.recordsBefore z (n + 1) =
    run.recordsBefore z n ++ if run.Recorded n then [run.record z n] else [] := by
  rw [recordsBefore, List.range_succ, List.filter_append, List.map_append, ← recordsBefore]
  by_cases h : run.Recorded n
  · simp [h]
  · simp [h]

theorem iteration_lt_of_mem_recordsBefore {n : Nat} {r : Record α}
    (h : r ∈ run.recordsBefore z n) : r.iteration < n := by
  obtain ⟨i, hi, rfl⟩ := List.mem_map.1 h
  exact List.mem_range.1 (List.mem_filter.1 hi).1

theorem fits_iterate (hz : z.Fits run.scaled.problem.rows run.scaled.problem.cols) (i : Nat) :
    (run.iterate z i).Fits run.scaled.problem.rows run.scaled.problem.cols := by
  induction i with
  | zero => exact hz
  | succ i ih => exact Problem.fits_step _ _ ih

theorem fits_move (hz : z.Fits run.scaled.problem.rows run.scaled.problem.cols) (i : Nat) :
    (run.move z i).Fits run.scaled.problem.rows run.scaled.problem.cols := by
  cases i with
  | zero => exact Iterate.fits_zeros _ _
  | succ i => exact (fits_iterate hz i).displacement (fits_iterate hz (i + 1))

/-! ### What the loop does -/

/-- The loop has come to an iterate, with the records of some of those before. -/
structure Reached (run : Run α) (z : Iterate α) (i n : Nat) (st : Progress α) : Prop where
  iterate : st.iterate = run.iterate z i
  move : st.move = run.move z i
  iteration : st.iteration = i
  passes : st.passes = work i
  records : st.table.records.toList = run.recordsBefore z n

/-- An iterate at which a run stops is the last one that is recorded. -/
theorem Reached.last? {k : Nat} {st : Progress α} (h : run.Reached z k (k + 1) st)
    (hk : run.Stops z k) : st.table.last? = some (run.record z k) := by
  have hrec : run.Recorded k := ((stops_iff k).1 hk).elim .inr And.left
  rw [Table.last?, ← Array.getLast?_toList, h.records, recordsBefore_succ, if_pos hrec]
  exact List.getLast?_concat

/-- The conditions under which the loop cannot fail: periods that are not zero, and
    sizes that fit. -/
structure Sound (run : Run α) (z : Iterate α) : Prop where
  recordEvery : run.par.recordEvery ≠ 0
  printEvery : run.par.printEvery ≠ 0
  scaled : run.scaled.Fits
  start : z.Fits run.scaled.problem.rows run.scaled.problem.cols

omit [Scalar α] in
theorem Sound.recordEvery_toNat (h : run.Sound z) : run.par.recordEvery.toNat ≠ 0 :=
  fun h0 => h.recordEvery (UInt64.toNat_inj.1 h0)

omit [Scalar α] in
theorem Sound.printPeriod (h : run.Sound z) : run.par.printPeriod ≠ 0 := by
  have hp : run.par.printEvery.toNat ≠ 0 := fun h0 => h.printEvery (UInt64.toNat_inj.1 h0)
  have hmul := Nat.pos_of_ne_zero (Nat.mul_ne_zero h.recordEvery_toNat hp)
  exact Nat.ne_of_gt (Nat.lt_min.2 ⟨hmul, by decide⟩)

/-- An examination adds the record of an iterate that is recorded, and tells whether
    its error is within the tolerance. -/
theorem Reached.examine? (hs : run.Sound z) {i : Nat} {st : Progress α}
    (h : run.Reached z i i st) (atLimit : Bool) (hl : atLimit = true ↔ i = run.limit) :
    ∃ st', run.examine? atLimit st = .ok (st',
        decide (run.Recorded i ∧ (run.record z i).error ≤ run.par.tolerance)) ∧
      run.Reached z i (i + 1) st' := by
  -- What the loop knows to be due or at the limit is what is recorded, and the table
  -- takes the record, as all others are of earlier iterations.
  have hdue : (decide (run.par.recordEvery.toNat ∣ i) || atLimit) = decide (run.Recorded i) := by
    rw [Bool.eq_iff_iff, Bool.or_eq_true, decide_eq_true_iff, decide_eq_true_iff, hl, Recorded]
  have hrec : run.scaled.evaluate? st.iterate st.move i st.passes (run.clock i) =
      .ok (run.record z i) := by
    rw [h.iterate, h.move, h.passes]
    exact Scaled.evaluate?_eq hs.scaled (fits_iterate hs.start i) (fits_move hs.start i) _ _ _
  obtain ⟨t, ht, htr⟩ := Table.push?_eq (t := st.table) (r := run.record z i) fun r hr => by
    rw [h.records] at hr
    exact iteration_lt_of_mem_recordsBefore hr
  rw [Run.examine?, h.iteration, divides?_eq hs.recordEvery_toNat, divides?_eq hs.printPeriod]
  simp only [bind, Except.bind, hdue, hrec, ht]
  by_cases hi : run.Recorded i
  · rw [if_pos (decide_eq_true hi)]
    simp only [hi, true_and]
    refine ⟨_, rfl, h.iterate, h.move, rfl, h.passes, ?_⟩
    rw [htr, h.records, recordsBefore_succ, if_pos hi]
  · rw [if_neg (by simpa using hi)]
    refine ⟨st, by rw [decide_eq_false fun h' => hi h'.1]; rfl, h.iterate, h.move, h.iteration,
      h.passes, ?_⟩
    rw [h.records, recordsBefore_succ, if_neg hi, List.append_nil]

/-- A stepper that counts its calls. -/
def counted (stepper : Iterate α → Except Fault (Iterate α)) (z : Iterate α) :
    StateT Nat (Except Fault) (Iterate α) := do
  modify (· + 1)
  stepper z

omit [Scalar α] in
/-- What passes goes on with its value, and calls no stepper. -/
theorem run_liftM_ok_bind {β γ : Type} (b : β) (f : β → StateT Nat (Except Fault) γ)
    (count : Nat) :
    ((liftM (Except.ok b : Except Fault β) : StateT Nat (Except Fault) β) >>= f).run count =
      (f b).run count := rfl

omit [Scalar α] in
/-- A call of the stepper is counted. -/
theorem run_counted_bind {β : Type} {stepper : Iterate α → Except Fault (Iterate α)}
    {w w' : Iterate α} (h : stepper w = .ok w') (f : Iterate α → StateT Nat (Except Fault) β)
    (count : Nat) : (counted stepper w >>= f).run count = (f w').run (count + 1) := by
  rw [counted, h]
  rfl

/-- A step leads to the next iterate, by one call of the stepper. -/
theorem Reached.advanceBy? (hs : run.Sound z) {i n : Nat} {st : Progress α}
    (h : run.Reached z i n st) (hi : i + 1 < UInt64.size) (count : Nat) :
    ∃ st', (advanceBy? (counted run.stepper?) st).run count = .ok (st', count + 1) ∧
      run.Reached z (i + 1) n st' := by
  have hfit := fits_iterate hs.start i
  have hstep : run.stepper? st.iterate = .ok (run.iterate z (i + 1)) := by
    rw [h.iterate]
    exact Problem.step?_eq _ _ hfit
  have hmove : Iterate.displacement? st.iterate (run.iterate z (i + 1)) =
      .ok (run.move z (i + 1)) := by
    rw [h.iterate]
    exact Iterate.displacement?_eq hfit (fits_iterate hs.start (i + 1))
  have hsucc : succ? st.iteration = .ok (i + 1) := by rw [h.iteration, succ?, if_pos hi]
  refine ⟨{ st with
    iterate := run.iterate z (i + 1), move := run.move z (i + 1), iteration := i + 1
    passes := st.passes + passesPerStep }, ?_, rfl, rfl, rfl, ?_, h.records⟩
  · rw [Run.advanceBy?, hsucc, run_liftM_ok_bind, run_counted_bind hstep, hmove,
      run_liftM_ok_bind]
    rfl
  · rw [h.passes]
    rfl

/-- The loop, from an iterate on: it ends with the first one at which the run stops,
    and calls the stepper once for each before that. -/
theorem Reached.loopBy? (hs : run.Sound z) {remaining i : Nat} {st : Progress α}
    (h : run.Reached z i i st) (hi : i + remaining = run.limit) (count : Nat) :
    ∃ k last, IsLeast {j | i ≤ j ∧ run.Stops z j} k ∧ run.Reached z k (k + 1) last ∧
      (run.loopBy? (counted run.stepper?) remaining st).run count =
        .ok ((last, run.statusAt z k), count + (k - i)) := by
  -- By induction on the steps that remain until the limit, which is the last one that
  -- the loop looks at without a step after it.
  induction remaining generalizing i st count with
  | zero =>
    obtain ⟨last, hex, hlast⟩ := h.examine? hs true (by simpa using hi)
    refine ⟨i, last, ⟨⟨Nat.le_refl i, .inl hi⟩, fun _ hj => hj.1⟩, hlast, ?_⟩
    have hrec : run.Recorded i := .inr hi
    rw [Run.loopBy?, hex, run_liftM_ok_bind]
    simp only [hrec, true_and, decide_eq_true_eq, Nat.sub_self]
    rfl
  | succ remaining ih =>
    have hne : i ≠ run.limit := by omega
    obtain ⟨st', hex, hst'⟩ := h.examine? hs false (by simpa using hne)
    rw [Run.loopBy?, hex, run_liftM_ok_bind]
    dsimp only
    by_cases hstop : run.Recorded i ∧ (run.record z i).error ≤ run.par.tolerance
    · refine ⟨i, st', ⟨⟨Nat.le_refl i, (stops_iff i).2 (.inr hstop)⟩, fun _ hj => hj.1⟩, hst', ?_⟩
      rw [if_pos (decide_eq_true hstop), statusAt, if_pos hstop.2, Nat.sub_self]
      rfl
    · -- The count of the steps cannot overflow, as the limit is a machine word.
      have hlt : i + 1 < UInt64.size := by
        have := run.par.iterationLimit.toNat_lt_size
        rw [limit] at hi
        omega
      obtain ⟨st'', hadv, hst''⟩ := hst'.advanceBy? hs hlt count
      obtain ⟨k, last, hk, hlast, hrun⟩ := ih hst'' (by omega) (count + 1)
      have hik : i + 1 ≤ k := hk.1.1
      refine ⟨k, last, ⟨⟨Nat.le_of_succ_le hik, hk.1.2⟩, ?_⟩, hlast, ?_⟩
      · -- The run does not stop at `i` itself.
        intro j hj
        rcases Nat.eq_or_lt_of_le hj.1 with rfl | hlt'
        · exact absurd hj.2 fun hstops => ((stops_iff i).1 hstops).elim hne hstop
        · exact hk.2 ⟨hlt', hj.2⟩
      · rw [if_neg (by simpa using hstop), StateT.run_bind, hadv]
        refine hrun.trans ?_
        rw [show count + 1 + (k - (i + 1)) = count + (k - i) by omega]

theorem run_advanceBy?_counted (stepper : Iterate α → Except Fault (Iterate α))
    (st : Progress α) (count : Nat) :
    (Run.advanceBy? (counted stepper) st).run count =
      (·, count + 1) <$> Run.advanceBy? stepper st := by
  -- Both pass the same guards in the same order, and fail with the same faults.
  rw [Run.advanceBy?, Run.advanceBy?]
  cases succ? st.iteration with
  | error fault => rfl
  | ok iteration =>
    rw [run_liftM_ok_bind]
    cases h : stepper st.iterate with
    | error fault =>
      rw [StateT.run_bind, counted, h]
      rfl
    | ok next =>
      rw [run_counted_bind h]
      change _ = (·, count + 1) <$> (Iterate.displacement? st.iterate next >>= _)
      cases Iterate.displacement? st.iterate next with
      | error fault => rfl
      | ok move => rfl

/-- Counting the calls of the stepper changes nothing else. -/
theorem map_fst_loopBy?_counted (stepper : Iterate α → Except Fault (Iterate α))
    (remaining : Nat) (st : Progress α) (count : Nat) :
    Prod.fst <$> (run.loopBy? (counted stepper) remaining st).run count =
      run.loopBy? stepper remaining st := by
  induction remaining generalizing st count with
  | zero =>
    rw [Run.loopBy?, Run.loopBy?]
    cases run.examine? true st with
    | error fault => rfl
    | ok examined => rfl
  | succ remaining ih =>
    rw [Run.loopBy?, Run.loopBy?]
    cases run.examine? false st with
    | error fault => rfl
    | ok examined =>
      obtain ⟨st', converged⟩ := examined
      cases converged with
      | true => rfl
      | false =>
        rw [run_liftM_ok_bind]
        change Prod.fst <$> StateT.run (Run.advanceBy? (counted stepper) st' >>= _) count =
          Run.advanceBy? stepper st' >>= _
        rw [StateT.run_bind, run_advanceBy?_counted]
        cases Run.advanceBy? stepper st' with
        | error fault => rfl
        | ok next => exact ih next (count + 1)

/-- The loop from its start, with `k` steps to the first iterate at which the run
    stops. -/
theorem loop?_eq (hs : run.Sound z) :
    ∃ k last, IsLeast {j | run.Stops z j} k ∧ run.Reached z k (k + 1) last ∧
      (run.loopBy? (counted run.stepper?) run.limit
        (.start run.scaled.problem.rows run.scaled.problem.cols z)).run 0 =
          .ok ((last, run.statusAt z k), k) ∧
      run.loop? run.limit (.start run.scaled.problem.rows run.scaled.problem.cols z) =
        .ok (last, run.statusAt z k) := by
  have h : run.Reached z 0 0 (.start run.scaled.problem.rows run.scaled.problem.cols z) :=
    ⟨rfl, rfl, rfl, rfl, rfl⟩
  obtain ⟨k, last, hk, hlast, hrun⟩ := h.loopBy? hs (Nat.zero_add _) 0
  simp only [Nat.zero_le, true_and, Nat.zero_add, Nat.sub_zero] at hk hrun
  refine ⟨k, last, hk, hlast, hrun, ?_⟩
  rw [loop?, ← map_fst_loopBy?_counted run.stepper? _ _ 0, hrun]
  rfl

end Run

/-! ### What a run on a problem finds -/

/-- The run on a problem under parameters. -/
def Params.run (par : Params α) (clock : Nat → Float) (p : Problem α) : Run α where
  par := par
  scaled := (par.scaled p).1
  stepSize := (par.chooseStepSize (par.scaled p).1.problem.matrix).1
  clock := clock

/-- The iterate from which a run starts: the images of what is given, and zeros. -/
def Params.start (par : Params α) (p : Problem α) : Iterate α where
  primal := (par.startPrimal.map (par.scaled p).1.scalePrimal).getD (Vec.zeros p.cols)
  dual := (par.startDual.map (par.scaled p).1.scaleDual).getD (Vec.zeros p.rows)

theorem Params.shape_scaled (par : Params α) (p : Problem α) :
    (par.scaled p).1.problem.rows = p.rows ∧ (par.scaled p).1.problem.cols = p.cols := by
  rw [scaled]
  split
  · exact Scaled.shape_balanced _ _ _ _
  · exact ⟨rfl, rfl⟩

theorem Params.rows_run (par : Params α) (clock : Nat → Float) (p : Problem α) :
    (par.run clock p).scaled.problem.rows = p.rows := (par.shape_scaled p).1

theorem Params.cols_run (par : Params α) (clock : Nat → Float) (p : Problem α) :
    (par.run clock p).scaled.problem.cols = p.cols := (par.shape_scaled p).2

theorem Params.fits_scaled (par : Params α) (p : Problem α) : (par.scaled p).1.Fits := by
  rw [scaled]
  split
  · exact Scaled.fits_balanced _ _ _ _
  · exact Scaled.fits_identity _

omit [Scalar α] in
theorem Params.misfit?_eq_none_iff {expected : Nat} {x : Option (Vec α)} :
    misfit? expected x = none ↔ ∀ v ∈ x, v.size = expected := by
  cases x with
  | none => simp [misfit?]
  | some v => simp [misfit?]

/-- What is asked of parameters for a problem with given numbers of constraints and
    variables. -/
structure Params.Accepted (par : Params α) (rows cols : Nat) : Prop where
  recordEvery : par.recordEvery ≠ 0
  printEvery : par.printEvery ≠ 0
  tolerance : 0 < par.tolerance
  stepSize : ∀ t ∈ par.stepSize, 0 < t
  startPrimal : ∀ x ∈ par.startPrimal, x.size = cols
  startDual : ∀ y ∈ par.startDual, y.size = rows

theorem Params.accepted_of_error?_eq_none {par : Params α} {rows cols : Nat}
    (h : par.error? rows cols = none) : par.Accepted rows cols := by
  -- Each condition fails, as otherwise there would be a reason.
  rw [error?] at h
  split at h
  · exact absurd h (Option.some_ne_none _)
  rename_i hperiod
  split at h
  · exact absurd h (Option.some_ne_none _)
  rename_i htol
  split at h
  · exact absurd h (Option.some_ne_none _)
  rename_i hstep
  split at h
  · exact absurd h (Option.some_ne_none _)
  · exact absurd h (Option.some_ne_none _)
  · rename_i hprimal hdual
    rw [not_or] at hperiod
    refine ⟨hperiod.1, hperiod.2, not_not.1 htol, ?_, misfit?_eq_none_iff.1 hprimal,
      misfit?_eq_none_iff.1 hdual⟩
    intro t ht
    rw [Option.mem_def.1 ht] at hstep
    simpa using hstep

theorem Params.Accepted.error?_eq_none {par : Params α} {rows cols : Nat}
    (h : par.Accepted rows cols) : par.error? rows cols = none := by
  have hstep : ¬ (par.stepSize.any fun t => ¬ 0 < t) = true := by
    rw [Option.any_eq_true]
    rintro ⟨t, ht, hlt⟩
    exact absurd (h.stepSize t ht) (of_decide_eq_true hlt)
  rw [error?, if_neg (not_or.2 ⟨h.recordEvery, h.printEvery⟩), if_neg (not_not.2 h.tolerance),
    if_neg hstep, misfit?_eq_none_iff.2 h.startPrimal, misfit?_eq_none_iff.2 h.startDual]

/-- The parameters of an accepted run give the loop nothing to fail at. -/
theorem Params.Accepted.sound {par : Params α} {p : Problem α} (h : par.Accepted p.rows p.cols)
    (clock : Nat → Float) : (par.run clock p).Sound (par.start p) := by
  obtain ⟨hr, hc⟩ := par.shape_scaled p
  have hs := par.fits_scaled p
  refine ⟨h.recordEvery, h.printEvery, hs, ?_, ?_⟩
  · change (par.start p).primal.size = (par.scaled p).1.problem.cols
    rw [hc, Params.start]
    cases hx : par.startPrimal with
    | none => exact Vec.size_zeros _
    | some x =>
      change (Scaled.image _ x).size = _
      rw [Scaled.size_image, hs.variableFactors, hc, h.startPrimal x hx, Nat.min_self]
  · change (par.start p).dual.size = (par.scaled p).1.problem.rows
    rw [hr, Params.start]
    cases hy : par.startDual with
    | none => exact Vec.size_zeros _
    | some y =>
      change (Scaled.image _ y).size = _
      rw [Scaled.size_image, hs.constraintFactors, hr, h.startDual y hy, Nat.min_self]

theorem Params.Accepted.fits_iterate {par : Params α} {p : Problem α}
    (h : par.Accepted p.rows p.cols) (clock : Nat → Float) (k : Nat) :
    ((par.run clock p).iterate (par.start p) k).Fits p.rows p.cols := by
  have hfits := Run.fits_iterate (h.sound clock).start k
  rwa [par.rows_run, par.cols_run] at hfits

theorem Params.startFrom?_primal {par : Params α} {p : Problem α}
    (h : par.Accepted p.rows p.cols) :
    startFrom? (par.scaled p).1.scalePrimal? p.cols par.startPrimal =
      .ok (par.start p).primal := by
  rw [Params.start]
  cases hx : par.startPrimal with
  | none => rfl
  | some x =>
    rw [startFrom?, Scaled.scalePrimal?, (par.fits_scaled p).variableFactors,
      (par.shape_scaled p).2, h.startPrimal x hx, Fault.checkLength_self]
    rfl

theorem Params.startFrom?_dual {par : Params α} {p : Problem α}
    (h : par.Accepted p.rows p.cols) :
    startFrom? (par.scaled p).1.scaleDual? p.rows par.startDual = .ok (par.start p).dual := by
  rw [Params.start]
  cases hy : par.startDual with
  | none => rfl
  | some y =>
    rw [startFrom?, Scaled.scaleDual?, (par.fits_scaled p).constraintFactors,
      (par.shape_scaled p).1, h.startDual y hy, Fault.checkLength_self]
    rfl

theorem Scaled.unscalePrimal?_eq {s : Scaled α} (hs : s.Fits) {z : Iterate α}
    (hz : z.Fits s.problem.rows s.problem.cols) :
    s.unscalePrimal? z.primal = .ok (s.unscalePrimal z.primal) := by
  rw [unscalePrimal?, hs.variableFactors, hz.primal, Fault.checkLength_self]
  rfl

theorem Scaled.unscaleDual?_eq {s : Scaled α} (hs : s.Fits) {z : Iterate α}
    (hz : z.Fits s.problem.rows s.problem.cols) :
    s.unscaleDual? z.dual = .ok (s.unscaleDual z.dual) := by
  rw [unscaleDual?, hs.constraintFactors, hz.dual, Fault.checkLength_self]
  rfl

/-- A run with accepted parameters ends with the first iterate at which it stops. -/
theorem solve?_eq (clock : Nat → Float) {p : Problem α} {par : Params α}
    (h : par.error? p.rows p.cols = none) :
    ∃ k last, IsLeast {i | (par.run clock p).Stops (par.start p) i} k ∧
      (par.run clock p).Reached (par.start p) k (k + 1) last ∧
      ((par.run clock p).loopBy? (Run.counted (par.run clock p).stepper?)
        par.iterationLimit.toNat (.start p.rows p.cols (par.start p))).run 0 =
          .ok ((last, (par.run clock p).statusAt (par.start p) k), k) ∧
      ∃ events, solve? clock p par = .ok ⟨.ok {
        primal := (par.scaled p).1.unscalePrimal last.iterate.primal
        dual := (par.scaled p).1.unscaleDual last.iterate.dual
        table := last.table
        status := (par.run clock p).statusAt (par.start p) k }, events⟩ := by
  have hacc := Params.accepted_of_error?_eq_none h
  have hsound := hacc.sound clock
  obtain ⟨k, last, hk, hlast, hcount, hloop⟩ := Run.loop?_eq hsound
  have hfits : last.iterate.Fits _ _ := hlast.iterate ▸ Run.fits_iterate hsound.start k
  have hprimal := Scaled.unscalePrimal?_eq hsound.scaled hfits
  have hdual := Scaled.unscaleDual?_eq hsound.scaled hfits
  rw [Run.limit, par.rows_run, par.cols_run] at hcount hloop
  -- The guards of the run pass one after the other, and in between the loop comes to
  -- what is known of it.
  refine ⟨k, last, hk, hlast, hcount, ?_⟩
  rw [solve?, h]
  simp only [Params.startFrom?_primal hacc, Params.startFrom?_dual hacc, Fault.ok_bind]
  change ∃ events, (Run.loop? (par.run clock p) par.iterationLimit.toNat
    (.start p.rows p.cols (par.start p)) >>= _) = _
  rw [show Run.loop? (par.run clock p) par.iterationLimit.toNat _ = _ from hloop, Fault.ok_bind]
  change ∃ events, ((par.run clock p).scaled.unscalePrimal? last.iterate.primal >>= _) = _
  rw [hprimal, Fault.ok_bind]
  change ∃ events, ((par.run clock p).scaled.unscaleDual? last.iterate.dual >>= _) = _
  rw [hdual, Fault.ok_bind]
  exact ⟨_, rfl⟩

/-- Only with accepted parameters there is a solution. -/
theorem error?_eq_none_of_solve? {clock : Nat → Float} {p : Problem α} {par : Params α}
    {sol : Solution α} {events : Array (Event α)}
    (h : solve? clock p par = .ok ⟨.ok sol, events⟩) : par.error? p.rows p.cols = none := by
  cases herr : par.error? p.rows p.cols with
  | none => rfl
  | some cause =>
    rw [solve?, herr] at h
    cases h

/-- A solution is what the iteration has come to at the first iterate at which it stops. -/
theorem exists_reached_of_solve? {clock : Nat → Float} {p : Problem α} {par : Params α}
    {sol : Solution α} {events : Array (Event α)}
    (h : solve? clock p par = .ok ⟨.ok sol, events⟩) :
    par.Accepted p.rows p.cols ∧ ∃ k last,
      IsLeast {i | (par.run clock p).Stops (par.start p) i} k ∧
      (par.run clock p).Reached (par.start p) k (k + 1) last ∧
      sol = {
        primal := (par.scaled p).1.unscalePrimal last.iterate.primal
        dual := (par.scaled p).1.unscaleDual last.iterate.dual
        table := last.table
        status := (par.run clock p).statusAt (par.start p) k } := by
  have hpar := error?_eq_none_of_solve? h
  obtain ⟨k, last, hk, hlast, -, events', hsolve⟩ := solve?_eq clock hpar
  rw [h] at hsolve
  injection hsolve with houtcome
  injection houtcome with hresult
  injection hresult with hsol
  exact ⟨Params.accepted_of_error?_eq_none hpar, k, last, hk, hlast, hsol⟩

/-- The program that minimises one variable which equals one and lies between zero and
    two. -/
def Problem.single (α : Type) [Scalar α] : Problem α where
  objective := #[1]
  matrix := .ofEntries 1 1 .byColumn [⟨0, 0, 1⟩] (by simp)
  rightSide := #[1]
  equalities := 1
  lower := #[0]
  upper := #[1 + 1]
  size_objective := rfl
  size_rightSide := rfl
  size_lower := rfl
  size_upper := rfl
  equalities_le := Nat.le_refl 1

end HybridGradient
