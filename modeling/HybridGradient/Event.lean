import HybridGradient.Balance
import HybridGradient.Params
import HybridGradient.Record
import HybridGradient.SpectralNorm

/-!
# Events

What happens in the course of a run, in the order in which it happens. An event
holds the values it is about; how it is worded, and to whom it is told, is
decided elsewhere.
-/

namespace HybridGradient

/-- How a run that was not refused ends. -/
inductive Status where
  /-- The error of the last iterate is within the tolerance. -/
  | optimal
  /-- The number of iterations reached its limit before. -/
  | iterationLimit
  deriving Repr, DecidableEq

/-- Something that happens in a run. -/
inductive Event (α : Type) where
  /-- The problem is refused. -/
  | problemRefused (cause : ProblemError)
  /-- The parameters are refused. -/
  | paramsRefused (cause : ParamError)
  /-- The parameters are accepted. -/
  | paramsAccepted (par : Params α)
  /-- Preparations begin. -/
  | initializing
  /-- The magnitudes in the matrix before balancing. -/
  | beforeBalancing (range : MagnitudeRange α)
  /-- The magnitudes in the matrix after balancing. -/
  | afterBalancing (range : MagnitudeRange α)
  /-- The matrix annihilates the start vector of a seed. -/
  | annihilated (seed : Nat)
  /-- The power method has settled at a pass. -/
  | settled (pass : Nat)
  /-- The step size is known. -/
  | stepSize (t : α)
  /-- The iteration begins. -/
  | started
  /-- An iterate was examined. -/
  | examined (iteration : Nat) (error : α)
  /-- The names of the columns are printed. -/
  | header
  /-- A record is printed. -/
  | row (record : Record α)
  /-- The point of the last iterate, in the scaled space. -/
  | lastPrimal (iteration : Nat) (x : Vec α)
  /-- The multipliers of the last iterate, in the scaled space. -/
  | lastDual (iteration : Nat) (y : Vec α)
  /-- The run ends. -/
  | ended (status : Status)

variable {α : Type} [Scalar α]

/-- What happens when a problem is balanced into a scaled one: nothing, if there is
    no pass at all. -/
def Scaled.balancingEvents (p : Problem α) (means largests : Nat) (s : Scaled α) :
    List (Event α) :=
  if means = 0 ∧ largests = 0 then []
  else [.beforeBalancing (MagnitudeRange.ofMatrix p.matrix),
    .afterBalancing (MagnitudeRange.ofMatrix s.problem.matrix)]

/-- What happens when a spectral norm is estimated. -/
def SpectralNorm.Estimate.events (e : SpectralNorm.Estimate α) : List (Event α) :=
  e.annihilated.map .annihilated ++ e.settledAt.toList.map .settled

end HybridGradient
