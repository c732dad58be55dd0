import HybridGradient.Proofs.Findings
import HybridGradient.Session

/-!
# Watching a run does not change it

What a run does is told while it happens: between two computations, and in the same branch that
examines an iterate and decides whether to end there. The watched program here tells each event
at its place to an observer, who may make of it whatever they like: forget it, show it if its
level asks for it, or write it to a sink that has stopped to take anything. What they come to is
a state of theirs that the computation never reads. Neither does it read whether or how often
records are printed.

* `Watched.solve?`: the run with each event told at its place;
* `Watched.solve?_eq`: it finds what the run finds, and has told its events in their order;
* `Console`: an observer with a logger and a greatest level of messages, and its session
  (`Console.solve?_eq`);
* `solve?_unwatched`: all observers and all ways of printing leave a run with the same result.
-/

namespace HybridGradient

namespace Watched

variable {α σ : Type} (watch : σ → Event α → σ)

/-- Something happens, and the observer makes something of it. -/
def tell (e : Event α) : StateT σ (Except Fault) Unit := modify (watch · e)

variable [Scalar α]

/-! ### The step size -/

/-- The power method, which tells at which pass it has settled. A vector that the matrix
    annihilates has no estimate. -/
def powerMethodFrom (A : SparseMatrix α) (tolerance : α) :
    (remaining : ℕ) → (i : ℕ) → (v : Vec α) → (square : α) → StateT σ (Except Fault) (Option α)
  | 0, _, _, square => return some (Scalar.sqrt square)
  | remaining + 1, i, v, square => do
    let w := SpectralNorm.gram A v
    let length := Vec.norm w
    if length == 0 then return none
    else if ¬ 0 < length then return some length
    else if Scalar.abs (length - square) ≤ tolerance * length then
      tell watch (.settled i)
      return some (Scalar.sqrt length)
    else powerMethodFrom A tolerance remaining (i + 1) (Vec.scale (Scalar.recip length) w) length

/-- The estimate of the norm, which tells which start vectors are annihilated. -/
def estimateFrom (A : SparseMatrix α) (passes : ℕ) (tolerance : α) :
    List ℕ → StateT σ (Except Fault) α
  | [] => return 0
  | seed :: seeds => do
    match ← powerMethodFrom watch A tolerance passes 0
        (SpectralNorm.startVector A.cols (UInt64.ofNat seed)) 0 with
    | some norm => return norm
    | none =>
      tell watch (.annihilated seed)
      estimateFrom A passes tolerance seeds

/-- The step size for a matrix. -/
def chooseStepSize (par : Params α) (A : SparseMatrix α) : StateT σ (Except Fault) α :=
  match par.stepSize with
  | some t => return t
  | none => do
    let norm ←
      if A.rows = 0 ∨ A.cols = 0 then pure 0
      else estimateFrom watch A par.powerPasses.toNat par.powerTolerance [0, 1, 2]
    return Scalar.ofBinary64 stepSizeFactor / norm

/-! ### The scaled problem -/

/-- The scaled problem on which a run works, which tells the magnitudes in the matrix before
    and after balancing. -/
def scaled (par : Params α) (p : Problem α) : StateT σ (Except Fault) (Scaled α) := do
  if par.rescale then
    let means := par.meanPasses.toNat
    let largests := par.largestPasses.toNat
    if means = 0 ∧ largests = 0 then return Scaled.identity p
    else
      tell watch (.beforeBalancing (MagnitudeRange.ofMatrix p.matrix))
      let s := Scaled.balanced p means largests par.leastFactor
      tell watch (.afterBalancing (MagnitudeRange.ofMatrix s.problem.matrix))
      return s
  else return Scaled.identity p

/-! ### The iteration -/

/-- A record is made and, if asked for, printed, under the header if it is the first one. -/
def tellRecord (headed printed : Bool) (r : Record α) : StateT σ (Except Fault) Unit := do
  tell watch (.examined r.iteration r.error)
  if printed then
    unless headed do tell watch .header
    tell watch (.row r)

/-- The examination of an iterate, if it is due, and whether its error is within the
    tolerance. -/
def examine? (run : Run α) (atLimit : Bool) (st : Progress α) :
    StateT σ (Except Fault) (Progress α × Bool) := do
  let recordDue ← divides? run.par.recordEvery.toNat st.iteration
  let printDue ← divides? run.par.printPeriod st.iteration
  if recordDue || atLimit then
    let r ← run.scaled.evaluate? st.iterate st.move st.iteration st.passes
      (run.clock st.iteration)
    let printed := run.par.verbose && (printDue || atLimit)
    tellRecord watch st.headed printed r
    let table ← st.table.push? r
    return ({ st with table, headed := st.headed || printed },
      decide (r.error ≤ run.par.tolerance))
  else return (st, false)

/-- The iteration, with a number of steps remaining up to the limit. -/
def loop? (run : Run α) :
    (remaining : ℕ) → Progress α → StateT σ (Except Fault) (Progress α × Status)
  | 0, st => do
    let (st, converged) ← examine? watch run true st
    return (st, if converged then .optimal else .iterationLimit)
  | remaining + 1, st => do
    let (st, converged) ← examine? watch run false st
    if converged then return (st, .optimal)
    else
      let st ← (Run.advanceBy? run.stepper? st : Except Fault (Progress α))
      loop? run remaining st

/-! ### The whole run -/

/-- A run on a problem, each event of which is told when it happens. -/
def solve? (clock : ℕ → Float) (p : Problem α) (par : Params α) :
    StateT σ (Except Fault) (Except ParamError (Solution α)) :=
  match par.error? p.rows p.cols with
  | some cause => do
    tell watch (.paramsRefused cause)
    return .error cause
  | none => do
    tell watch (.paramsAccepted par)
    tell watch .initializing
    let scaled ← scaled watch par p
    let stepSize ← chooseStepSize watch par scaled.problem.matrix
    tell watch (.stepSize stepSize)
    let primal ← startFrom? scaled.scalePrimal? p.cols par.startPrimal
    let dual ← startFrom? scaled.scaleDual? p.rows par.startDual
    let run : Run α := { par, scaled, stepSize, clock }
    tell watch .started
    let (last, status) ← loop? watch run par.iterationLimit.toNat
      (Progress.start p.rows p.cols ⟨primal, dual⟩)
    tell watch (.lastPrimal last.iteration last.iterate.primal)
    tell watch (.lastDual last.iteration last.iterate.dual)
    tell watch (.ended status)
    let primal ← scaled.unscalePrimal? last.iterate.primal
    let dual ← scaled.unscaleDual? last.iterate.dual
    return .ok { primal, dual, table := last.table, status }

/-! ### What is told, and that it is all -/

omit [Scalar α] in
theorem run_liftM_bind {β γ : Type} (x : Except Fault β) (f : β → StateT σ (Except Fault) γ)
    (s : σ) : ((liftM x : StateT σ (Except Fault) β) >>= f).run s = x >>= fun b => (f b).run s := by
  cases x <;> rfl

omit [Scalar α] in
theorem run_tell_bind {β : Type} (e : Event α) (f : Unit → StateT σ (Except Fault) β) (s : σ) :
    (tell watch e >>= f).run s = (f ()).run (watch s e) := rfl

theorem powerMethodFrom_eq (A : SparseMatrix α) (tolerance : α) (remaining i : ℕ) (v : Vec α)
    (square : α) (s : σ) :
    (powerMethodFrom watch A tolerance remaining i v square).run s =
      match SpectralNorm.powerMethodFrom A tolerance remaining i v square with
      | .annihilated => .ok (none, s)
      | .estimated norm settledAt =>
        .ok (some norm, (settledAt.toList.map .settled).foldl watch s) := by
  induction remaining generalizing i v square with
  | zero => rfl
  | succ remaining ih =>
    rw [powerMethodFrom, SpectralNorm.powerMethodFrom]
    split
    · rfl
    · split
      · rfl
      · split
        · rfl
        · exact ih _ _ _

theorem estimateFrom_eq (A : SparseMatrix α) (passes : ℕ) (tolerance : α) (seeds : List ℕ)
    (s : σ) : (estimateFrom watch A passes tolerance seeds).run s =
      .ok ((SpectralNorm.estimateFrom A passes tolerance seeds).norm,
        (SpectralNorm.estimateFrom A passes tolerance seeds).events.foldl watch s) := by
  induction seeds generalizing s with
  | nil => rfl
  | cons seed seeds ih =>
    rw [estimateFrom, SpectralNorm.estimateFrom, SpectralNorm.powerMethod, StateT.run_bind,
      powerMethodFrom_eq]
    cases SpectralNorm.powerMethodFrom A tolerance passes 0
      (SpectralNorm.startVector A.cols (UInt64.ofNat seed)) 0 with
    | estimated norm settledAt => rfl
    | annihilated => exact ih _

theorem chooseStepSize_eq (par : Params α) (A : SparseMatrix α) (s : σ) :
    (chooseStepSize watch par A).run s =
      .ok ((par.chooseStepSize A).1, (par.chooseStepSize A).2.foldl watch s) := by
  rw [chooseStepSize, Params.chooseStepSize]
  cases par.stepSize with
  | some t => rfl
  | none =>
    dsimp only
    rw [SpectralNorm.estimate]
    split
    · rfl
    · rw [StateT.run_bind, estimateFrom_eq]
      rfl

theorem scaled_eq (par : Params α) (p : Problem α) (s : σ) : (scaled watch par p).run s =
    .ok ((par.scaled p).1, (par.scaled p).2.foldl watch s) := by
  rw [scaled, Params.scaled]
  split
  · dsimp only
    rw [Scaled.balancingEvents]
    split
    · rename_i hnone
      rw [Scaled.balanced, if_pos hnone]
      rfl
    · rfl
  · rfl

omit [Scalar α] in
theorem tellRecord_eq (headed printed : Bool) (r : Record α) (s : σ) :
    (tellRecord watch headed printed r).run s =
      .ok ((), (Progress.recordEvents headed printed r).foldl watch s) := by
  cases printed with
  | false => rfl
  | true =>
    cases headed with
    | false => rfl
    | true => rfl

/-- What changes from one iterate to the next, without what has happened. -/
def silent (st : Progress α) : Progress α := { st with events := #[] }

/-- What an observer has come to who was told what has happened. -/
def heard (s : σ) (st : Progress α) : σ := st.events.toList.foldl watch s

theorem examine?_eq (run : Run α) (atLimit : Bool) (st : Progress α) (s : σ) :
    (examine? watch run atLimit (silent st)).run (heard watch s st) =
      (fun o => ((silent o.1, o.2), heard watch s o.1)) <$> run.examine? atLimit st := by
  obtain ⟨z, move, i, passes, table, headed, events⟩ := st
  simp only [examine?, Run.examine?, silent, run_liftM_bind, map_bind]
  refine bind_congr fun recordDue => bind_congr fun printDue => ?_
  split
  · rw [run_liftM_bind, map_bind]
    refine bind_congr fun r => ?_
    rw [StateT.run_bind, tellRecord_eq, Fault.ok_bind, run_liftM_bind, map_bind]
    refine bind_congr fun table => ?_
    rw [heard, ← List.foldl_append, ← Array.toList_appendList]
    rfl
  · rfl

/-- A step tells nothing, and does not look at what was told, whatever comes after it. -/
theorem advanceBy?_silent {γ : Type} (stepper : Iterate α → Except Fault (Iterate α))
    (st : Progress α) (s : σ) (f : Progress α → σ → Except Fault γ) :
    (Run.advanceBy? stepper (silent st) >>= fun st' => f st' (heard watch s st)) =
      Run.advanceBy? stepper st >>= fun st' => f (silent st') (heard watch s st') := by
  obtain ⟨z, move, i, passes, table, headed, events⟩ := st
  simp only [Run.advanceBy?, silent, bind_assoc]
  rfl

/-- The iteration tells what happens in it. -/
theorem loop?_eq (run : Run α) (remaining : ℕ) (st : Progress α) (s : σ) :
    (loop? watch run remaining (silent st)).run (heard watch s st) =
      (fun o => ((silent o.1, o.2), heard watch s o.1)) <$> run.loop? remaining st := by
  induction remaining generalizing st with
  | zero =>
    rw [loop?, Run.loop?, Run.loopBy?, StateT.run_bind, examine?_eq]
    cases run.examine? true st with
    | error fault => rfl
    | ok examined => rfl
  | succ remaining ih =>
    rw [loop?, Run.loop?, Run.loopBy?, StateT.run_bind, examine?_eq, bind_map_left, map_bind]
    refine bind_congr fun examined => ?_
    obtain ⟨st', converged⟩ := examined
    cases converged with
    | true => rfl
    | false =>
      change StateT.run (liftM (Run.advanceBy? run.stepper? (silent st')) >>=
        loop? watch run remaining) (heard watch s st') =
          _ <$> (Run.advanceBy? run.stepper? st' >>= run.loop? remaining)
      rw [run_liftM_bind, map_bind]
      exact (advanceBy?_silent watch _ st' s fun st s =>
        (loop? watch run remaining st).run s).trans (bind_congr ih)

/-- The watched run finds what the run finds, and all of its events are told, in their order. -/
theorem solve?_eq (clock : ℕ → Float) (p : Problem α) (par : Params α) (s : σ) :
    (solve? watch clock p par).run s =
      (fun o => (o.result, o.events.toList.foldl watch s)) <$>
        HybridGradient.solve? clock p par := by
  rw [solve?, HybridGradient.solve?]
  cases herr : par.error? p.rows p.cols with
  | some cause => rfl
  | none =>
    dsimp only
    rw [run_tell_bind, run_tell_bind, StateT.run_bind, scaled_eq, Fault.ok_bind, StateT.run_bind,
      chooseStepSize_eq, Fault.ok_bind, run_tell_bind, run_liftM_bind, map_bind]
    refine bind_congr fun x => ?_
    rw [run_liftM_bind, map_bind]
    refine bind_congr fun y => ?_
    -- Before the start of the iteration nothing was told in it.
    have hloop (s : σ) : (loop? watch (par.run clock p) par.iterationLimit.toNat
        (.start p.rows p.cols ⟨x, y⟩)).run s = _ :=
      loop?_eq watch (par.run clock p) par.iterationLimit.toNat (.start p.rows p.cols ⟨x, y⟩) s
    rw [run_tell_bind, StateT.run_bind, map_bind]
    change ((loop? watch (par.run clock p) _ _).run _ >>= _) = _
    rw [hloop, bind_map_left]
    refine bind_congr fun o => ?_
    obtain ⟨last, status⟩ := o
    simp only [run_tell_bind, run_liftM_bind, map_bind]
    refine bind_congr fun x' => bind_congr fun y' => ?_
    simp only [map_pure, StateT.run_pure, heard, Array.toList_append, Array.toList_appendList,
      List.foldl_append, List.foldl_cons, List.foldl_nil]
    rfl

end Watched

/-! ### Observers with a logger -/

/-- An observer who hands the printed lines to a logger, and sees the messages up to a level. -/
structure Console where
  /-- The level up to which messages are seen; without one, none of them is. -/
  limit : Option Level
  /-- Where the printed lines go. -/
  logger : Logger
  /-- The messages that were seen. -/
  messages : Array Message

namespace Console

variable {α : Type} [Binary α]

/-- Whether a message is seen by those who see messages up to a level, if any. -/
def sees (limit : Option Level) (m : Message) : Bool := limit.any fun l => l.shown m.level

/-- The console after messages, of which those up to its level are seen. -/
def take (c : Console) (logger : Logger) (messages : Array Message) : Console :=
  { c with logger, messages := c.messages ++ messages.filter (sees c.limit) }

/-- The console after something has happened. -/
def hear (c : Console) (e : Event α) : Console :=
  c.take (c.logger.tell e.telling).1 (c.logger.tell e.telling).2.toArray

theorem hear_take (c : Console) (logger : Logger) (messages : Array Message) (e : Event α) :
    (c.take logger messages).hear e =
      c.take (logger.tell e.telling).1 (messages ++ (logger.tell e.telling).2) := by
  have hmessages : messages.filter (sees c.limit) ++
      (logger.tell e.telling).2.toArray.filter (sees c.limit) =
        (messages ++ (logger.tell e.telling).2).filter (sees c.limit) := by
    apply Array.toList_inj.1
    simp
  simp only [hear, take, Array.append_assoc, hmessages]

/-- What a console comes to is what its logger comes to, and the messages that it sees. -/
theorem foldl_hear (c : Console) (events : List (Event α)) : events.foldl hear c =
    c.take (c.logger.tellAll (events.map Event.telling)).1
      (c.logger.tellAll (events.map Event.telling)).2 := by
  -- By induction from what the logger has come to after some of the events.
  have hfold (logger : Logger) (messages : Array Message) :
      events.foldl hear (c.take logger messages) =
        let told := (events.map Event.telling).foldl
          (fun told t => ((told.1.tell t).1, told.2 ++ (told.1.tell t).2)) (logger, messages)
        c.take told.1 told.2 := by
    induction events generalizing logger messages with
    | nil => rfl
    | cons e events ih =>
      rw [List.foldl_cons, hear_take, ih]
      rfl
  have hstart : c.take c.logger #[] = c := by simp [take]
  have hall := hfold c.logger #[]
  rwa [hstart] at hall

variable [Scalar α]

/-- A run on a problem before a console. -/
def solve? (c : Console) (clock : ℕ → Float) (p : Problem α) (par : Params α) :
    Except Fault (Except ParamError (Solution α) × Console) :=
  (Watched.solve? hear clock p par).run c

/-- A run before a console is a session with its logger, of whose messages some are seen. -/
theorem solve?_eq (c : Console) (clock : ℕ → Float) (p : Problem α) (par : Params α) :
    c.solve? clock p par =
      (fun session => (session.result, c.take session.logger session.messages)) <$>
        Session.solve? clock c.logger p par := by
  rw [solve?, Watched.solve?_eq, Session.solve?]
  simp only [foldl_hear, map_bind]
  rfl

end Console

/-! ### Observers leave a run as it is -/

/-- Parameters differ in nothing but whether and how often records are printed. -/
def Params.SameButPrinting {α : Type} (par q : Params α) : Prop :=
  q = { par with verbose := q.verbose, printEvery := q.printEvery }

namespace Params.SameButPrinting

variable {α : Type} [Scalar α] {p : Problem α} {par q : Params α}

/-- Printing has no influence on the iterates, on which of them are recorded and on what the
    records hold. -/
theorem lockstep (h : par.SameButPrinting q) (clock clock' : ℕ → Float) :
    (par.run clock p).Lockstep (q.run clock' p) (par.start p) (q.start p) ∧
      ∀ i, (par.run clock p).original (par.start p) i =
        (q.run clock' p).original (q.start p) i := by
  obtain ⟨verbose, printEvery, rfl⟩ : ∃ verbose printEvery,
      q = { par with verbose, printEvery } := ⟨_, _, h⟩
  let q : Params α := { par with verbose, printEvery }
  have hiterate (z : Iterate α) (i : ℕ) :
      (par.run clock p).iterate z i = (q.run clock' p).iterate z i := by
    apply Run.iterate_congr
    rfl
  have hmove (z : Iterate α) (i : ℕ) : (par.run clock p).move z i = (q.run clock' p).move z i := by
    apply Run.move_congr <;> rfl
  refine ⟨⟨rfl, rfl, rfl, fun i => ?_⟩, fun i => ?_⟩
  · rw [Run.untimed_record, Run.untimed_record, hiterate, hmove]
    rfl
  · rw [Run.original, Run.original, hiterate]
    rfl

/-- Printing has no influence on what is found. -/
theorem exists_found (p : Problem α) (hpar : par.error? p.rows p.cols = none) :
    ∃ found : Solution α, ∀ q, par.SameButPrinting q → q.error? p.rows p.cols = none →
      ∀ clock : ℕ → Float,
        ∃ sol events, solve? clock p q = .ok ⟨.ok sol, events⟩ ∧ sol.untimed = found := by
  have hfindings {q : Params α} (h : par.SameButPrinting q) (hq : q.error? p.rows p.cols = none)
      (clock : ℕ → Float) :=
    (h.lockstep (p := p) (fun _ => 0) clock).1.exists_findings (h.lockstep _ clock).2 hpar hq
  have hself : par.SameButPrinting par := rfl
  obtain ⟨found, hfound, -⟩ := hfindings hself hpar fun _ => 0
  refine ⟨found, fun q h hq clock => ?_⟩
  obtain ⟨found', hfound', hrun⟩ := hfindings h hq clock
  obtain rfl := Except.ok.inj (Except.ok.inj (hfound'.symm.trans hfound))
  exact Outcome.exists_of_findings hrun

end Params.SameButPrinting

/-- Let parameters be accepted, and let only whether and how often records are printed be open.
    Then there is a solution that every run on the problem finds, apart from the seconds: at any
    clock, before any observer, before any console, whatever its logger is and up to which level
    it sees messages, and in any session. -/
theorem solve?_unwatched {α : Type} [Scalar α] [Binary α] {p : Problem α} {par : Params α}
    (hpar : par.error? p.rows p.cols = none) :
    ∃ found : Solution α, ∀ q, par.SameButPrinting q → q.error? p.rows p.cols = none →
      ∀ clock : ℕ → Float,
        (∀ (σ : Type) (watch : σ → Event α → σ) (s : σ), ∃ result s',
          (Watched.solve? watch clock p q).run s = .ok (result, s') ∧
            result.map Solution.untimed = .ok found) ∧
        (∀ c : Console, ∃ result c', c.solve? clock p q = .ok (result, c') ∧
          result.map Solution.untimed = .ok found) ∧
        ∀ logger : Logger, ∃ session, Session.solve? clock logger p q = .ok session ∧
          session.result.map Solution.untimed = .ok found := by
  obtain ⟨found, hfound⟩ := Params.SameButPrinting.exists_found p hpar
  refine ⟨found, fun q h hq clock => ?_⟩
  obtain ⟨sol, events, hsolve, hsol⟩ := hfound q h hq clock
  have hresult : (Except.ok sol : Except ParamError (Solution α)).map Solution.untimed =
      .ok found := congrArg Except.ok hsol
  have hwatched (σ : Type) (watch : σ → Event α → σ) (s : σ) :
      (Watched.solve? watch clock p q).run s = .ok (.ok sol, events.toList.foldl watch s) := by
    rw [Watched.solve?_eq, hsolve]
    rfl
  refine ⟨fun σ watch s => ⟨_, _, hwatched σ watch s, hresult⟩,
    fun c => ⟨_, _, hwatched Console Console.hear c, hresult⟩, fun logger => ?_⟩
  refine ⟨⟨.ok sol, (logger.tellAll (events.toList.map Event.telling)).1,
    (logger.tellAll (events.toList.map Event.telling)).2⟩, ?_, hresult⟩
  rw [Session.solve?, hsolve]
  rfl

/-- A run in binary64 that prints every record to a sink which soon takes no more, before an
    observer who sees everything, and one that prints nothing and is not observed. -/
theorem exists_unwatched_single :
    ∃ par q : Params Float, par.verbose = true ∧ q.verbose = false ∧ q.printEvery ≠ par.printEvery ∧
      par.SameButPrinting q ∧ ∃ found : Solution Float,
        (∃ result c', Console.solve? ⟨some .trace, .write (.ofLimits (some 10) none), #[]⟩
            (fun _ => 0) (.single Float) par = .ok (result, c') ∧
          result.map Solution.untimed = .ok found) ∧
        ∃ result c', Console.solve? ⟨none, .discard, #[]⟩ (fun _ => 1) (.single Float) q =
            .ok (result, c') ∧
          result.map Solution.untimed = .ok found := by
  let par : Params Float :=
    { (default : Params Float) with verbose := true, printEvery := 1, recordEvery := 1 }
  let q : Params Float := { par with verbose := false, printEvery := 7 }
  have hpar : par.error? (Problem.single Float).rows (Problem.single Float).cols = none := by
    decide +kernel
  have hq : q.error? (Problem.single Float).rows (Problem.single Float).cols = none := by
    decide +kernel
  obtain ⟨found, hfound⟩ := solve?_unwatched hpar
  exact ⟨par, q, rfl, rfl, by decide, rfl, found, (hfound par rfl hpar fun _ => 0).2.1 _,
    (hfound q rfl hq fun _ => 1).2.1 _⟩

end HybridGradient
