import HybridGradient.Balance
import HybridGradient.Event
import HybridGradient.Optimality
import HybridGradient.Record
import HybridGradient.Step

/-!
# Solving

A run balances the problem, chooses the step size, and then takes one step after
the other from the starting iterate. On the way it examines iterates: those at
multiples of a period, and the one at the iteration limit. It ends with the
first examined iterate whose error is within the tolerance, or else at the
limit.

* `Params.chooseStepSize`: the given step size, or one that is a little less
  than the reciprocal of the spectral norm;
* `Run.loopBy?`: the iteration, by recursion on the number of steps up to the
  limit, with the stepper as a parameter; `Run.loop?`: the same with the step of the
  method;
* `solve?`: the whole of a run. The events of the run and the printed rows do not
  take part in the computation; they are handed out beside the result.
-/

namespace HybridGradient

variable {α : Type} [Scalar α]

/-! ### The step size -/

/-- What the product of step size and spectral norm is, which has to be less than
    one. -/
def stepSizeFactor : Float := 0.99

/-- The step size for a matrix, and what happens when it is chosen. -/
def Params.chooseStepSize (par : Params α) (A : SparseMatrix α) : α × List (Event α) :=
  match par.stepSize with
  | some t => (t, [])
  | none =>
    let e := SpectralNorm.estimate A par.powerPasses.toNat par.powerTolerance
    (Scalar.ofBinary64 stepSizeFactor / e.norm, e.events)

/-- The step size for a matrix that has not too many rows, if they matter, and what
    happens when it is chosen. -/
def Params.chooseStepSize? (par : Params α) (A : SparseMatrix α) :
    Except Fault (α × List (Event α)) := do
  if par.stepSize.isNone then SpectralNorm.checkRows A
  return par.chooseStepSize A

/-! ### The iteration -/

/-- The work of one step: a product with the matrix and one with its transpose. -/
def passesPerStep : Float := 2.0

/-- What stays the same during the iteration. -/
structure Run (α : Type) where
  /-- The parameters. -/
  par : Params α
  /-- The scaled problem. -/
  scaled : Scaled α
  /-- The step size. -/
  stepSize : α
  /-- The seconds from the start to the examination at an iteration. -/
  clock : Nat → Float

/-- What changes from one iterate to the next. -/
structure Progress (α : Type) where
  /-- The iterate. -/
  iterate : Iterate α
  /-- The displacement that led to it. -/
  move : Iterate α
  /-- The number of steps so far. -/
  iteration : Nat
  /-- The work so far. -/
  passes : Float
  /-- The records so far. -/
  table : Table α
  /-- Whether the header was printed. -/
  headed : Bool
  /-- What happened so far. -/
  events : Array (Event α)

/-- Whether a period, which is not zero, divides a number. -/
def divides? (period n : Nat) : Except Fault Bool :=
  if period = 0 then .error .period else .ok (n % period == 0)

/-- The next number of a count that fits into a machine word. -/
def succ? (n : Nat) : Except Fault Nat :=
  if n + 1 < UInt64.size then .ok (n + 1) else .error (.overflow n)

namespace Progress

/-- The beginning, at a starting iterate. -/
def start (rows cols : Nat) (z : Iterate α) : Progress α where
  iterate := z
  move := Iterate.zeros rows cols
  iteration := 0
  passes := 0
  table := Table.empty
  headed := false
  events := #[]

/-- What happens when a record is made, and printed or not. -/
def recordEvents (headed printed : Bool) (r : Record α) : List (Event α) :=
  .examined r.iteration r.error ::
    if printed then (if headed then [] else [.header]) ++ [.row r] else []

end Progress

namespace Run

/-- The examination of an iterate, if it is due, and whether its error is within the
    tolerance. An iterate at the limit is examined and, if anything is printed at
    all, printed in any case. -/
def examine? (run : Run α) (atLimit : Bool) (st : Progress α) :
    Except Fault (Progress α × Bool) := do
  let recordDue ← divides? run.par.recordEvery.toNat st.iteration
  let printDue ← divides? run.par.printPeriod st.iteration
  if recordDue || atLimit then
    let r ← run.scaled.evaluate? st.iterate st.move st.iteration st.passes
      (run.clock st.iteration)
    let table ← st.table.push? r
    let printed := run.par.verbose && (printDue || atLimit)
    return ({ st with
      table
      headed := st.headed || printed
      events := st.events ++ Progress.recordEvents st.headed printed r },
      decide (r.error ≤ run.par.tolerance))
  else return (st, false)

/-- The stepper: the next iterate of the scaled problem. -/
def stepper? (run : Run α) (z : Iterate α) : Except Fault (Iterate α) :=
  run.scaled.problem.step? run.stepSize z

section

variable {m : Type → Type} [Monad m] [MonadLiftT (Except Fault) m]

/-- One step, made by a stepper. -/
def advanceBy? (stepper : Iterate α → m (Iterate α)) (st : Progress α) : m (Progress α) := do
  let iteration ← succ? st.iteration
  let next ← stepper st.iterate
  let move ← Iterate.displacement? st.iterate next
  return { st with iterate := next, move, iteration, passes := st.passes + passesPerStep }

/-- The iteration by a stepper, with a number of steps remaining up to the limit. -/
def loopBy? (run : Run α) (stepper : Iterate α → m (Iterate α)) :
    (remaining : Nat) → Progress α → m (Progress α × Status)
  | 0, st => do
    let (st, converged) ← run.examine? true st
    return (st, if converged then .optimal else .iterationLimit)
  | remaining + 1, st => do
    let (st, converged) ← run.examine? false st
    if converged then return (st, .optimal)
    else
      let st ← advanceBy? stepper st
      run.loopBy? stepper remaining st

end

/-- The iteration, with a number of steps remaining up to the limit. -/
def loop? (run : Run α) (remaining : Nat) (st : Progress α) :
    Except Fault (Progress α × Status) :=
  run.loopBy? run.stepper? remaining st

end Run

/-! ### The whole run -/

/-- What a run finds. -/
structure Solution (α : Type) where
  /-- The point, in the space of the given problem. -/
  primal : Vec α
  /-- The multipliers, in the space of the given problem. -/
  dual : Vec α
  /-- The examinations. -/
  table : Table α
  /-- How the run ended. -/
  status : Status

/-- A result, and what happened until it was there. -/
structure Outcome (α : Type) where
  /-- What the run finds, or why the parameters are refused. -/
  result : Except ParamError (Solution α)
  /-- What happened. -/
  events : Array (Event α)

/-- The scaled problem on which a run works, and what happens when it is made. -/
def Params.scaled (par : Params α) (p : Problem α) : Scaled α × List (Event α) :=
  if par.rescale then
    let means := par.meanPasses.toNat
    let largests := par.largestPasses.toNat
    let s := Scaled.balanced p means largests par.leastFactor
    (s, Scaled.balancingEvents p means largests s)
  else (Scaled.identity p, [])

/-- The image of a vector to start from, and zeros without one. -/
def startFrom? (scale : Vec α → Except Fault (Vec α)) (size : Nat) :
    Option (Vec α) → Except Fault (Vec α)
  | some x => scale x
  | none => .ok (Vec.zeros size)

/-- A run on a problem. The clock tells the seconds from the start to the examination
    at an iteration. -/
def solve? (clock : Nat → Float) (p : Problem α) (par : Params α) : Except Fault (Outcome α) :=
  match par.error? p.rows p.cols with
  | some cause => .ok ⟨.error cause, #[.paramsRefused cause]⟩
  | none => do
    let (scaled, balancing) := par.scaled p
    let (stepSize, choice) := par.chooseStepSize scaled.problem.matrix
    let primal ← startFrom? scaled.scalePrimal? p.cols par.startPrimal
    let dual ← startFrom? scaled.scaleDual? p.rows par.startDual
    let run : Run α := { par, scaled, stepSize, clock }
    let (last, status) ← run.loop? par.iterationLimit.toNat
      (Progress.start p.rows p.cols ⟨primal, dual⟩)
    let primal ← scaled.unscalePrimal? last.iterate.primal
    let dual ← scaled.unscaleDual? last.iterate.dual
    let before : List (Event α) :=
      [.paramsAccepted par, .initializing] ++ balancing ++ choice ++ [.stepSize stepSize, .started]
    let after : List (Event α) :=
      [.lastPrimal last.iteration last.iterate.primal, .lastDual last.iteration last.iterate.dual,
        .ended status]
    return {
      result := .ok { primal, dual, table := last.table, status }
      events := before.toArray ++ last.events ++ after }

end HybridGradient
