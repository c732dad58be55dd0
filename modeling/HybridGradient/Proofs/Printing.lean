import HybridGradient.Proofs.Run
import HybridGradient.Scalar.Binary
import HybridGradient.Session
import Mathlib.Data.UInt

/-!
# What is printed

The rows that a run prints are decided in the middle of its iteration: only where a record is
made, by a period that is capped at the greatest machine word, and under a header that is printed
by whichever row comes first. What comes of it can be said from the result alone. The rows are
those of the records in the table whose iterations are multiples of the product of both periods,
however large that is, and of the one at the limit.

* `Run.Scheduled`, `Run.printout`: the iterations that are due to be printed, and the lines that
  go with some records;
* `Run.Examined`, `Run.examine?_cases`: what an examination can do;
* `Run.Printed`: a run has printed what goes with its records so far, which every examination and
  every step keep (`Run.Printed.examine?`, `Run.Printed.loop?`);
* `Logger.tellAll_eq`: a logger hears the lines alone;
* `Session.solve?_printed`: the lines of a session.
-/

namespace HybridGradient

variable {α : Type}

/-! ### Lines -/

/-- Whether an event is a line for the logger. -/
def Event.isLine : Event α → Bool
  | header => true
  | row _ => true
  | _ => false

/-- The text of a line, if a telling is one. -/
def Telling.line? : Telling → Option String
  | line text => some text
  | message _ => none

/-- The lines among what happened are those of the events that are lines. -/
theorem filterMap_line? [Binary α] (events : List (Event α)) :
    (events.map Event.telling).filterMap Telling.line? =
      ((events.filter Event.isLine).map Event.telling).filterMap Telling.line? := by
  induction events with
  | nil => rfl
  | cons e events ih =>
    cases e with
    | ended status =>
      cases status with
      | optimal => exact ih
      | iterationLimit => exact ih
    | header | row =>
      simp only [List.map_cons, List.filterMap_cons, List.filter_cons, Event.isLine, ih, if_true]
    | _ => exact ih

namespace Logger

/-- The logger after what was told is the one after the lines in it. -/
theorem tellAll_eq (l : Logger) (tellings : List Telling) :
    (l.tellAll tellings).1 = (l.logAll (tellings.filterMap Telling.line?)).1 := by
  -- By induction on what is told, the messages so far being whatever they are.
  have hfold (tellings : List Telling) (l : Logger) (messages messages' : Array Message) :
      (tellings.foldl (fun told t => ((told.1.tell t).1, told.2 ++ (told.1.tell t).2))
        (l, messages)).1 =
      (((tellings.filterMap Telling.line?).map .line).foldl
        (fun told t => ((told.1.tell t).1, told.2 ++ (told.1.tell t).2)) (l, messages')).1 := by
    induction tellings generalizing l messages messages' with
    | nil => rfl
    | cons t tellings ih =>
      cases t with
      | message m => exact ih l _ _
      | line text => exact ih (l.log text).1 _ _
  exact hfold tellings l #[] #[]

/-- A logger that collects lines ends with all of them. -/
theorem logAll_collect (before : Array String) (lines : List String) :
    (collect before).logAll lines = (collect (before ++ lines), #[]) := by
  have hfold (before : Array String) (lines : List String) :
      (lines.map Telling.line).foldl
        (fun told t => ((told.1.tell t).1, told.2 ++ (told.1.tell t).2))
        ((collect before, #[]) : Logger × Array Message) = (collect (before ++ lines), #[]) := by
    induction lines generalizing before with
    | nil => simp
    | cons line lines ih =>
      refine (ih (before.push line)).trans ?_
      simp
  exact hfold before lines

end Logger

/-! ### The schedule -/

namespace Run

/-- The iterate after a number of steps is due to be printed: the number is a multiple of the
    product of both periods, or at the limit. -/
def Scheduled (run : Run α) (i : ℕ) : Prop :=
  run.par.recordEvery.toNat * run.par.printEvery.toNat ∣ i ∨ i = run.limit

instance (run : Run α) (i : ℕ) : Decidable (run.Scheduled i) := inferInstanceAs (Decidable (_ ∨ _))

/-- The lines that go with records: the header, and a row for each of those that are due. -/
def printout (run : Run α) : List (Record α) → List (Event α)
  | [] => []
  | r :: records =>
    if run.par.verbose then
      .header :: ((r :: records).filter (run.Scheduled ·.iteration)).map .row
    else []

/-- Up to the limit, the period does not need to exceed a machine word. -/
theorem scheduled_iff {run : Run α} {i : ℕ} (hi : i ≤ run.limit) :
    run.par.printPeriod ∣ i ∨ i = run.limit ↔ run.Scheduled i := by
  have hlimit : run.limit ≤ UInt64.size - 1 :=
    Nat.le_sub_one_of_lt run.par.iterationLimit.toNat_lt_size
  rw [Scheduled, Params.printPeriod]
  rcases Nat.le_total (run.par.recordEvery.toNat * run.par.printEvery.toNat)
    (UInt64.size - 1) with hle | hle
  · rw [Nat.min_eq_left hle]
  · -- Of the multiples of a greater product only zero remains, and of those of the greatest
    -- word there is one more, which can be but the limit.
    rw [Nat.min_eq_right hle]
    constructor
    · rintro (hdvd | hi)
      · rcases Nat.eq_zero_or_pos i with rfl | hpos
        · exact .inl (Nat.dvd_zero _)
        · exact .inr (Nat.le_antisymm hi (Nat.le_trans hlimit (Nat.le_of_dvd hpos hdvd)))
      · exact .inr hi
    · rintro (hdvd | hi)
      · rcases Nat.eq_zero_or_pos i with rfl | hpos
        · exact .inl (Nat.dvd_zero _)
        · exact .inr (Nat.le_antisymm hi
            (Nat.le_trans hlimit (Nat.le_trans hle (Nat.le_of_dvd hpos hdvd))))
      · exact .inr hi

/-- Of more records, one more row is printed if it is due. -/
theorem printout_concat (run : Run α) {records : List (Record α)} (hne : records ≠ [])
    (r : Record α) : run.printout (records ++ [r]) = run.printout records ++
      if run.par.verbose ∧ run.Scheduled r.iteration then [.row r] else [] := by
  cases records with
  | nil => exact absurd rfl hne
  | cons first records =>
    rw [List.cons_append, printout, printout, ← List.cons_append, List.filter_append]
    by_cases hverbose : run.par.verbose = true
    · by_cases hdue : run.Scheduled r.iteration
      · simp [hverbose, hdue]
      · simp [hverbose, hdue]
    · simp [hverbose]

end Run

/-! ### What is kept -/

/-- The lines of a record that is made. -/
theorem Progress.filter_recordEvents (headed printed : Bool) (r : Record α) :
    (recordEvents headed printed r).filter Event.isLine =
      if printed then (if headed then [] else [.header]) ++ [.row r] else [] := by
  cases printed with
  | false => rfl
  | true =>
    cases headed with
    | false => rfl
    | true => rfl

theorem Table.toList_of_push? {t t' : Table α} {r : Record α} (h : t.push? r = .ok t') :
    t'.records.toList = t.records.toList ++ [r] := by
  rw [push?] at h
  split at h
  · obtain rfl := Except.ok.inj h
    exact Array.toList_push
  · split at h
    · obtain rfl := Except.ok.inj h
      exact Array.toList_push
    · cases h

theorem Fault.eq_ok_of_bind {β γ : Type} {x : Except Fault β} {f : β → Except Fault γ} {c : γ}
    (h : x >>= f = .ok c) : ∃ b, x = .ok b ∧ f b = .ok c := by
  cases x with
  | error fault => exact nomatch h
  | ok b => exact ⟨b, rfl, h⟩

variable [Scalar α]

theorem Scaled.eq_of_evaluate? {s : Scaled α} {z move : Iterate α} {i : ℕ}
    {passes elapsed : Float} {r : Record α} (h : s.evaluate? z move i passes elapsed = .ok r) :
    r = s.evaluate z move i passes elapsed := by
  rw [evaluate?] at h
  iterate 6 obtain ⟨-, -, h⟩ := Fault.eq_ok_of_bind h
  exact (Except.ok.inj h).symm

namespace Run

variable {run : Run α}

/-- A run has printed what goes with its records so far. Before its first record it is at its
    start, and after that the header was printed, if anything is printed at all. -/
structure Printed (run : Run α) (st : Progress α) : Prop where
  lines : st.events.toList.filter Event.isLine = run.printout st.table.records.toList
  start : st.table.records.toList = [] → st.iteration = 0 ∧ st.headed = false
  headed : st.table.records.toList ≠ [] → st.headed = run.par.verbose

/-- A record is made of where a run is, and what goes with it is printed. -/
structure Examined (run : Run α) (st : Progress α) (r : Record α) (st' : Progress α) : Prop where
  here : r.iteration = st.iteration
  iteration : st'.iteration = st.iteration
  records : st'.table.records.toList = st.table.records.toList ++ [r]
  headed : st'.headed = (st.headed || run.par.verbose && decide (run.Scheduled st.iteration))
  events : st'.events = st.events ++ Progress.recordEvents st.headed
    (run.par.verbose && decide (run.Scheduled st.iteration)) r

/-- An examination makes a record or, at no multiple of the period, changes nothing. -/
theorem examine?_cases {z : Iterate α} (hs : run.Sound z) {st st' : Progress α}
    {atLimit converged : Bool} (hle : st.iteration ≤ run.limit)
    (hl : atLimit = true ↔ st.iteration = run.limit)
    (hex : run.examine? atLimit st = .ok (st', converged)) :
    (∃ r, run.Examined st r st') ∨ st' = st ∧ ¬run.par.recordEvery.toNat ∣ st.iteration := by
  rw [Run.examine?, divides?_eq hs.recordEvery_toNat, divides?_eq hs.printPeriod, Fault.ok_bind,
    Fault.ok_bind] at hex
  have hprinted : (decide (run.par.printPeriod ∣ st.iteration) || atLimit) =
      decide (run.Scheduled st.iteration) := by
    rw [Bool.eq_iff_iff, Bool.or_eq_true, decide_eq_true_iff, decide_eq_true_iff, hl,
      scheduled_iff hle]
  rw [hprinted] at hex
  split at hex
  · obtain ⟨r, hr, hex⟩ := Fault.eq_ok_of_bind hex
    obtain ⟨t, ht, hex⟩ := Fault.eq_ok_of_bind hex
    obtain ⟨rfl, -⟩ := Prod.mk.inj (Except.ok.inj hex)
    have hhere : r.iteration = st.iteration := by rw [Scaled.eq_of_evaluate? hr]; rfl
    exact .inl ⟨r, hhere, rfl, Table.toList_of_push? ht, rfl, rfl⟩
  · rename_i hdue
    obtain ⟨rfl, -⟩ := Prod.mk.inj (Except.ok.inj hex)
    refine .inr ⟨rfl, fun hdvd => hdue ?_⟩
    rw [decide_eq_true hdvd, Bool.true_or]

/-- An examination prints the row of the record that it makes, if it is due. After it there is a
    record. -/
theorem Printed.examine? {z : Iterate α} (hs : run.Sound z) {st st' : Progress α}
    (h : run.Printed st) {atLimit converged : Bool} (hle : st.iteration ≤ run.limit)
    (hl : atLimit = true ↔ st.iteration = run.limit)
    (hex : run.examine? atLimit st = .ok (st', converged)) :
    run.Printed st' ∧ st'.table.records.toList ≠ [] ∧ st'.iteration = st.iteration := by
  obtain ⟨r, hr⟩ | ⟨rfl, hdue⟩ := examine?_cases hs hle hl hex
  · have hne : st'.table.records.toList ≠ [] := by simp [hr.records]
    have hlines : st'.events.toList.filter Event.isLine =
        run.printout st.table.records.toList ++
          if run.par.verbose ∧ run.Scheduled st.iteration then
            (if st.headed then [] else [.header]) ++ [.row r] else [] := by
      rw [hr.events, Array.toList_appendList, List.filter_append, h.lines,
        Progress.filter_recordEvents]
      simp only [Bool.and_eq_true, decide_eq_true_eq]
    -- The first record is that of the start.
    have hfirst (hnone : st.table.records.toList = []) : run.Scheduled st.iteration :=
      .inl ((h.start hnone).1 ▸ Nat.dvd_zero _)
    refine ⟨⟨?_, fun hempty => absurd hempty hne, fun _ => ?_⟩, hne, hr.iteration⟩
    all_goals by_cases hnone : st.table.records.toList = []
    · rw [hlines, hr.records, hnone, (h.start hnone).2, List.nil_append, printout, printout]
      simp [hfirst hnone, hr.here]
    · rw [hlines, hr.records, printout_concat run hnone, hr.here, h.headed hnone]
      congr 1
      by_cases hverbose : run.par.verbose = true
      · simp [hverbose]
      · simp [hverbose]
    · simp [hr.headed, (h.start hnone).2, hfirst hnone]
    · rw [hr.headed, h.headed hnone]
      cases run.par.verbose <;> rfl
  · -- Without a record to be made the run is not at its start any more.
    exact ⟨h, fun hnone => hdue ((h.start hnone).1 ▸ Nat.dvd_zero _), rfl⟩

/-- A step prints nothing. -/
theorem Printed.advanceBy? {st st' : Progress α} (h : run.Printed st)
    (hne : st.table.records.toList ≠ []) {stepper : Iterate α → Except Fault (Iterate α)}
    (hadv : Run.advanceBy? stepper st = .ok st') :
    run.Printed st' ∧ st'.iteration = st.iteration + 1 := by
  obtain ⟨i, hi, hadv⟩ := Fault.eq_ok_of_bind hadv
  obtain ⟨next, -, hadv⟩ := Fault.eq_ok_of_bind hadv
  obtain ⟨move, -, hadv⟩ := Fault.eq_ok_of_bind hadv
  obtain rfl := Except.ok.inj hadv
  refine ⟨⟨h.lines, fun hnone => absurd hnone hne, h.headed⟩, ?_⟩
  rw [succ?] at hi
  split at hi
  · exact (Except.ok.inj hi).symm
  · cases hi

/-- The loop has made a record when it ends, and has printed what goes with its records. -/
theorem Printed.loop? {z : Iterate α} (hs : run.Sound z) {remaining : ℕ} {st last : Progress α}
    {status : Status} (h : run.Printed st) (hi : st.iteration + remaining = run.limit)
    (hrun : run.loop? remaining st = .ok (last, status)) :
    run.Printed last ∧ last.table.records.toList ≠ [] := by
  induction remaining generalizing st with
  | zero =>
    obtain ⟨⟨st', converged⟩, hex, hrun⟩ := Fault.eq_ok_of_bind hrun
    obtain ⟨rfl, -⟩ := Prod.mk.inj (Except.ok.inj hrun)
    obtain ⟨h', hrecords, -⟩ := h.examine? hs (by omega) (by simpa using hi) hex
    exact ⟨h', hrecords⟩
  | succ remaining ih =>
    obtain ⟨⟨st', converged⟩, hex, hrun⟩ := Fault.eq_ok_of_bind hrun
    have hne : st.iteration ≠ run.limit := by omega
    obtain ⟨h', hrecords, hiteration⟩ := h.examine? hs (by omega) (by simpa using hne) hex
    cases converged with
    | true =>
      obtain ⟨rfl, -⟩ := Prod.mk.inj (Except.ok.inj hrun)
      exact ⟨h', hrecords⟩
    | false =>
      obtain ⟨st'', hadv, hrun⟩ := Fault.eq_ok_of_bind hrun
      obtain ⟨h'', hnext⟩ := h'.advanceBy? hrecords hadv
      exact ih h'' (by omega) hrun

end Run

/-! ### Sessions -/

theorem Scaled.filter_balancingEvents (p : Problem α) (means largests : ℕ) (s : Scaled α) :
    (balancingEvents p means largests s).filter Event.isLine = [] := by
  rw [balancingEvents]
  split <;> rfl

theorem Params.filter_scaled (par : Params α) (p : Problem α) :
    (par.scaled p).2.filter Event.isLine = [] := by
  rw [scaled]
  split
  · exact Scaled.filter_balancingEvents _ _ _ _
  · rfl

theorem Params.filter_chooseStepSize (par : Params α) (A : SparseMatrix α) :
    (par.chooseStepSize A).2.filter Event.isLine = [] := by
  rw [chooseStepSize]
  cases par.stepSize with
  | some t => rfl
  | none => simp [SpectralNorm.Estimate.events, Event.isLine, List.filter_map, Function.comp_def]

/-- Of what happens in a run, only what happens in its loop is a line. -/
theorem exists_loop?_of_solve? {clock : ℕ → Float} {p : Problem α} {par : Params α}
    {sol : Solution α} {events : Array (Event α)}
    (h : solve? clock p par = .ok ⟨.ok sol, events⟩) :
    ∃ last, (par.run clock p).loop? par.iterationLimit.toNat
        (.start p.rows p.cols (par.start p)) = .ok (last, sol.status) ∧
      sol.table = last.table ∧
      events.toList.filter Event.isLine = last.events.toList.filter Event.isLine := by
  have herror := error?_eq_none_of_solve? h
  have hacc := Params.accepted_of_error?_eq_none herror
  rw [solve?, herror] at h
  simp only [Params.startFrom?_primal hacc, Params.startFrom?_dual hacc, Fault.ok_bind] at h
  obtain ⟨⟨last, status⟩, hloop, h⟩ := Fault.eq_ok_of_bind h
  obtain ⟨primal, -, h⟩ := Fault.eq_ok_of_bind h
  obtain ⟨dual, -, h⟩ := Fault.eq_ok_of_bind h
  obtain ⟨hresult, rfl⟩ := Outcome.mk.inj (Except.ok.inj h)
  obtain rfl := Except.ok.inj hresult
  refine ⟨last, hloop, rfl, ?_⟩
  simp [List.filter_append, Params.filter_scaled, Params.filter_chooseStepSize, Event.isLine]

/-- What a run has printed when it ends. Its table is not empty then, so that the header was
    printed, if anything is printed at all. -/
theorem filter_isLine_of_solve? {clock : ℕ → Float} {p : Problem α} {par : Params α}
    {sol : Solution α} {events : Array (Event α)}
    (h : solve? clock p par = .ok ⟨.ok sol, events⟩) :
    events.toList.filter Event.isLine = if par.verbose then
      .header :: (sol.table.records.toList.filter
        ((par.run clock p).Scheduled ·.iteration)).map .row else [] := by
  obtain ⟨last, hloop, htable, hlines⟩ := exists_loop?_of_solve? h
  have hacc := Params.accepted_of_error?_eq_none (error?_eq_none_of_solve? h)
  have hstart : (par.run clock p).Printed (.start p.rows p.cols (par.start p)) :=
    ⟨rfl, fun _ => ⟨rfl, rfl⟩, fun hne => absurd rfl hne⟩
  obtain ⟨hlast, hne⟩ := hstart.loop? (hacc.sound clock) (Nat.zero_add _) hloop
  rw [hlines, htable, hlast.lines]
  cases hrecords : last.table.records.toList with
  | nil => exact absurd hrecords hne
  | cons r records => rfl

/-- The first cell stands at the beginning of its row. -/
theorem Row.exists_ofCells_eq (text next : String) (cells : List String) :
    ∃ rest, ofCells (text :: next :: cells) = flushRight 8 text ++ rest := by
  refine ⟨" " ++ String.intercalate " " (List.zipWith flushRight widths.tail (next :: cells)), ?_⟩
  rw [ofCells, widths, List.zipWith_cons_cons, List.zipWith_cons_cons,
    String.intercalate_cons_cons, String.append_assoc, List.tail_cons, List.zipWith_cons_cons]

omit [Scalar α] in
/-- The first word of a row is a number, which is not what the header begins with. -/
theorem Record.row_ne_header [Binary α] (r : Record α) : r.row ≠ Row.header := by
  have hfirst (text rest : String) : (Row.flushRight 8 text ++ rest).toList.find? (· ≠ ' ') =
      (text.toList ++ rest.toList).find? (· ≠ ' ') := by
    simp [Row.flushRight, String.toList_append, List.find?_append]
  obtain ⟨rest, hrow⟩ : ∃ rest, r.row = Row.flushRight 8 (toString r.iteration) ++ rest :=
    Row.exists_ofCells_eq _ _ _
  obtain ⟨rest', hheader⟩ : ∃ rest, Row.header = Row.flushRight 8 "iter" ++ rest :=
    Row.exists_ofCells_eq _ _ _
  have hdigits : (toString r.iteration).toList = Nat.toDigits 10 r.iteration := Nat.toList_repr
  cases hlist : Nat.toDigits 10 r.iteration with
  | nil => exact absurd hlist Nat.toDigits_ne_nil
  | cons c digits =>
    have hdigit : c.isDigit = true := Nat.isDigit_of_mem_toDigits (b := 10) (by decide)
      (Nat.le_refl 10) (hlist ▸ List.mem_cons_self)
    have hblank : c ≠ ' ' := fun h => absurd (h ▸ hdigit) (by decide)
    intro heq
    have hletter : ((toString r.iteration).toList ++ rest.toList).find? (· ≠ ' ') =
        ("iter".toList ++ rest'.toList).find? (· ≠ ' ') := by
      rw [← hfirst, ← hfirst, ← hrow, ← hheader, heq]
    rw [hdigits, hlist, List.cons_append, List.find?_cons_of_pos (by simpa using hblank)] at hletter
    obtain rfl : c = 'i' := Option.some.inj hletter
    exact absurd hdigit (by decide)

/-- What is told of a run, as far as it is printed. -/
theorem lines_of_solve? [Binary α] {clock : ℕ → Float} {p : Problem α} {par : Params α}
    {sol : Solution α} {events : Array (Event α)}
    (h : solve? clock p par = .ok ⟨.ok sol, events⟩) :
    (events.toList.map Event.telling).filterMap Telling.line? = if par.verbose then
      Row.header :: (sol.table.records.toList.filter
        ((par.run clock p).Scheduled ·.iteration)).map Record.row else [] := by
  rw [filterMap_line?, filter_isLine_of_solve? h]
  split
  · simp [Event.telling, Telling.line?, Function.comp_def]
  · rfl

/-- A session finds what the run finds, and its logger has heard the lines. -/
theorem Session.exists_of_solve? [Binary α] {clock : ℕ → Float} {p : Problem α} {par : Params α}
    {o : Outcome α} (h : HybridGradient.solve? clock p par = .ok o) (logger : Logger) :
    ∃ session, Session.solve? clock logger p par = .ok session ∧ session.result = o.result ∧
      session.logger =
        (logger.logAll ((o.events.toList.map Event.telling).filterMap Telling.line?)).1 := by
  rw [solve?, h]
  exact ⟨_, rfl, rfl, logger.tellAll_eq _⟩

/-- With accepted parameters, a session hands exactly the scheduled lines to its logger, whatever
    that is, and they are all the lines there are among what is told. Without printing there are
    none. Otherwise the header comes first, and after it, in their order, the rows of those records
    in the returned table whose iterations are multiples of the product of both periods, which may
    exceed a machine word, or at the limit. No row reads like the header, so that this comes only
    once. -/
theorem Session.solve?_printed [Binary α] {p : Problem α} {par : Params α}
    (hpar : par.error? p.rows p.cols = none) (clock : ℕ → Float) :
    ∃ sol events lines, HybridGradient.solve? clock p par = .ok ⟨.ok sol, events⟩ ∧
      lines = (if par.verbose then
        Row.header :: (sol.table.records.toList.filter fun r =>
          par.recordEvery.toNat * par.printEvery.toNat ∣ r.iteration ∨
            r.iteration = par.iterationLimit.toNat).map Record.row else []) ∧
      (events.toList.map Event.telling).filterMap Telling.line? = lines ∧
      (par.verbose = true → lines.count Row.header = 1) ∧
      (∀ logger, ∃ session, Session.solve? clock logger p par = .ok session ∧
        session.result = .ok sol ∧ session.logger = (logger.logAll lines).1) ∧
      ∀ before, ∃ session, Session.solve? clock (.collect before) p par = .ok session ∧
        session.result = .ok sol ∧ session.logger = .collect (before ++ lines) := by
  obtain ⟨k, last, -, -, -, events, hsolve⟩ := solve?_eq clock hpar
  have hlines := lines_of_solve? hsolve
  refine ⟨_, events, _, hsolve, hlines, rfl, fun hverbose => ?_, Session.exists_of_solve? hsolve,
    fun before => ?_⟩
  · have hrows : ∀ rows : List (Record α), Row.header ∉ rows.map Record.row := by
      intro rows hmem
      obtain ⟨r, -, hr⟩ := List.mem_map.1 hmem
      exact r.row_ne_header hr
    rw [hlines, if_pos hverbose, List.count_cons_self, List.count_eq_zero.2 (hrows _)]
  · obtain ⟨session, hrun, hresult, hlogger⟩ := Session.exists_of_solve? hsolve (.collect before)
    exact ⟨session, hrun, hresult, by rw [hlogger, Logger.logAll_collect]⟩

/-- Both periods of a verbose run in binary64 fit into a machine word, but their product does
    not. -/
theorem Session.exists_printed_single :
    ∃ par : Params Float, par.recordEvery = 3 * 2 ^ 32 ∧ par.printEvery = 2 ^ 32 ∧
      par.error? (Problem.single Float).rows (Problem.single Float).cols = none ∧
      ∃ sol session, Session.solve? (fun _ => 0) (.collect #[]) (Problem.single Float) par =
          .ok session ∧
        session.result = .ok sol ∧
        session.logger = .collect (#[Row.header] ++ (sol.table.records.toList.filter fun r =>
          3 * 2 ^ 64 ∣ r.iteration ∨ r.iteration = 5).map Record.row) := by
  let par : Params Float :=
    { (default : Params Float) with
      recordEvery := 3 * 2 ^ 32, printEvery := 2 ^ 32, iterationLimit := 5, verbose := true }
  have hpar : par.error? (Problem.single Float).rows (Problem.single Float).cols = none := by
    decide +kernel
  obtain ⟨sol, events, lines, -, hlines, -, -, -, hcollect⟩ :=
    Session.solve?_printed hpar (fun _ => 0)
  obtain ⟨session, hrun, hresult, hlogger⟩ := hcollect #[]
  refine ⟨par, rfl, rfl, hpar, sol, session, hrun, hresult, ?_⟩
  have hproduct : par.recordEvery.toNat * par.printEvery.toNat = 3 * 2 ^ 64 := by decide +kernel
  have hlimit : par.iterationLimit.toNat = 5 := rfl
  rw [hlogger, hlines, hproduct, hlimit]
  simp [par]

end HybridGradient
