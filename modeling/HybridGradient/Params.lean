import HybridGradient.Vec

/-!
# Parameters of a run

What a run can be told, with defaults for all of it, and the conditions under
which it is accepted (`Params.error?`): positive periods, a positive tolerance, a
positive step size if one is given, and starting vectors that fit the problem. A
tolerance or step size that compares with nothing is not positive.
-/

namespace HybridGradient

/-- The parameters of a run. Counts fit into a machine word. -/
structure Params (α : Type) where
  /-- The step size; without one it is taken from the spectral norm of the matrix. -/
  stepSize : Option α
  /-- Whether the problem is balanced first. -/
  rescale : Bool
  /-- The number of balancing passes to the geometric mean. -/
  meanPasses : UInt64
  /-- The number of balancing passes to the greatest magnitude, after the others. -/
  largestPasses : UInt64
  /-- Every so many iterations one is examined and recorded. -/
  recordEvery : UInt64
  /-- Every so many records one is printed. -/
  printEvery : UInt64
  /-- Whether anything is printed. -/
  verbose : Bool
  /-- The greatest number of iterations. -/
  iterationLimit : UInt64
  /-- The error at which an iterate is a solution. -/
  tolerance : α
  /-- The point to start from; without one it is zero. -/
  startPrimal : Option (Vec α)
  /-- The multipliers to start from; without any they are zero. -/
  startDual : Option (Vec α)
  /-- The least factor of a balancing pass. -/
  leastFactor : α
  /-- The greatest number of passes of the power method. -/
  powerPasses : UInt64
  /-- The relative change at which the estimate of the power method has settled. -/
  powerTolerance : α

/-- Why parameters are not accepted. -/
inductive ParamError where
  /-- One of the two periods is zero. -/
  | period (recordEvery printEvery : UInt64)
  /-- The tolerance is not positive. -/
  | tolerance
  /-- The step size is not positive. -/
  | stepSize
  /-- The starting point has not a component for each variable. -/
  | startPrimal (found expected : Nat)
  /-- The starting multipliers are not one for each constraint. -/
  | startDual (found expected : Nat)
  deriving Repr, DecidableEq

namespace ParamError

/-- What is said of parameters that were not accepted. -/
def message (_ : ParamError) : String := "InvalidParam: invalid solver parameter"

/-- The cause, in detail. -/
def detail : ParamError → String
  | period r p => s!"record_every {r} and print_every {p} must be > 0"
  | tolerance => "kkt_tolerance must be > 0"
  | stepSize => "step_size must be > 0"
  | startPrimal found expected =>
    s!"initial_primal_solution length {found} must be {expected}"
  | startDual found expected => s!"initial_dual_solution length {found} must be {expected}"

end ParamError

namespace Params

variable {α : Type} [Scalar α]

/-- The parameters of a run that is told nothing. -/
def default : Params α where
  stepSize := none
  rescale := true
  meanPasses := 10
  largestPasses := 4
  recordEvery := 1
  printEvery := 1
  verbose := false
  iterationLimit := 10000
  tolerance := Scalar.tenth 6
  startPrimal := none
  startDual := none
  leastFactor := Scalar.tenth 12
  powerPasses := 1000
  powerTolerance := Scalar.tenth 8

instance : Inhabited (Params α) := ⟨default⟩

/-- Whether a vector is given and has not the expected size. -/
def misfit? (expected : Nat) (x : Option (Vec α)) : Option Nat :=
  (x.map Array.size).filter (· ≠ expected)

/-- The first reason, if any, not to accept parameters for a problem with given
    numbers of constraints and variables. -/
def error? (par : Params α) (rows cols : Nat) : Option ParamError :=
  if par.recordEvery = 0 ∨ par.printEvery = 0 then
    some (.period par.recordEvery par.printEvery)
  else if ¬ 0 < par.tolerance then some .tolerance
  else if par.stepSize.any fun t => ¬ 0 < t then some .stepSize
  else
    match misfit? cols par.startPrimal, misfit? rows par.startDual with
    | some found, _ => some (.startPrimal found cols)
    | none, some found => some (.startDual found rows)
    | none, none => none

/-- The number of iterations from a printed record to the next one. It does not grow
    beyond a machine word, which no run can exceed. -/
def printPeriod (par : Params α) : Nat :=
  min (par.recordEvery.toNat * par.printEvery.toNat) (UInt64.size - 1)

end Params

end HybridGradient
