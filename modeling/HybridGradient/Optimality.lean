import HybridGradient.Record
import HybridGradient.Scaled
import HybridGradient.Step

/-!
# Optimality of an iterate

An iterate of the scaled problem is judged in the space of the given one. With
`x` and `y` the iterate mapped back and `r = c - Aᵀ y` the reduced costs:

* the primal residual holds `A x - b` for the equalities, what the inequalities
  lack, and what the finite bounds are violated by;
* the dual residual holds, for each variable, the part of `r` that no finite
  bound can absorb, and what the multipliers of the inequalities are below zero;
* the dual objective is `b · y` plus each finite bound times the part of `r` that
  it absorbs.

Products are taken with the scaled matrix, and the factors are multiplied back
into them. The error of the iterate is the length of both residuals and the gap
between the objectives taken together; it is zero at a solution.
-/

namespace HybridGradient

variable {α : Type} [Scalar α]

/-! ### A single variable -/

/-- What a component lies outside its finite bounds by. -/
def boundViolation (bounds : α × α) (x : α) : α :=
  let below := if Scalar.isFinite bounds.1 then 0 + Scalar.positivePart (bounds.1 - x) else 0
  if Scalar.isFinite bounds.2 then below + Scalar.positivePart (x - bounds.2) else below

/-- The part of a reduced cost that no finite bound absorbs: a positive cost needs
    a lower bound, a negative one an upper bound. -/
def unabsorbed (bounds : α × α) (r : α) : α :=
  match Scalar.isFinite bounds.1, Scalar.isFinite bounds.2 with
  | true, true => 0
  | true, false => Scalar.positivePart (-r)
  | false, true => Scalar.positivePart r
  | false, false => r

/-- A sum with what the finite bounds of one more variable contribute to the dual
    objective. -/
def addBoundCost (sum : α) (bounds : α × α) (r : α) : α :=
  let sum := if Scalar.isFinite bounds.1 then sum + bounds.1 * Scalar.positivePart r else sum
  if Scalar.isFinite bounds.2 then sum - bounds.2 * Scalar.positivePart (-r) else sum

namespace Scaled

/-! ### The parts of the examination -/

/-- The bounds of each variable in the space of the given problem. -/
def bounds (s : Scaled α) : Array (α × α) :=
  Array.zip (s.unscalePrimal s.problem.lower) (s.unscalePrimal s.problem.upper)

/-- The violation of each constraint at a scaled point. -/
def rowViolations (s : Scaled α) (x : Vec α) : Vec α :=
  let excess := Vec.times (s.problem.matrix.product 1 x (-1) s.problem.rightSide)
    s.constraintFactors
  excess.mapIdx fun i e => if i < s.problem.equalities then e else Scalar.positivePart (-e)

/-- The violation of the bounds of each variable at a scaled point. -/
def boundViolations (s : Scaled α) (x : Vec α) : Vec α :=
  Array.zipWith boundViolation s.bounds (s.unscalePrimal x)

/-- The reduced cost of each variable at scaled multipliers. -/
def reducedCosts (s : Scaled α) (y : Vec α) : Vec α :=
  Vec.times (s.problem.matrix.transposeProduct (-1) y 1 s.problem.objective) s.variableFactors

/-- The violation of the dual constraint of each variable at scaled multipliers. -/
def costViolations (s : Scaled α) (y : Vec α) : Vec α :=
  Array.zipWith unabsorbed s.bounds (s.reducedCosts y)

/-- What the multiplier of each inequality is below zero. -/
def signViolations (s : Scaled α) (y : Vec α) : Vec α :=
  ((s.unscaleDual y).extract s.problem.equalities).map fun v => Scalar.positivePart (-v)

/-- The contribution of the bounds to the dual objective. -/
def boundCost (s : Scaled α) (y : Vec α) : α :=
  (Array.zip s.bounds (s.reducedCosts y)).foldl (fun sum b => addBoundCost sum b.1 b.2) 0

/-- The cost of a scaled point, which is that of the point in the space of the given
    problem. -/
def primalObjective (s : Scaled α) (x : Vec α) : α := Vec.inner s.problem.objective x

/-- The bound on the cost that scaled multipliers give. -/
def dualObjective (s : Scaled α) (y : Vec α) : α :=
  Vec.inner s.problem.rightSide y + s.boundCost y

/-- The examination of a scaled iterate and the displacement that led to it. -/
def evaluate (s : Scaled α) (z move : Iterate α) (iteration : Nat) (passes elapsed : Float) :
    Record α :=
  let primalObjective := s.primalObjective z.primal
  let dualObjective := s.dualObjective z.dual
  let gap := Scalar.abs (primalObjective - dualObjective)
  let primalResidual :=
    Scalar.hypot (Vec.norm (s.rowViolations z.primal)) (Vec.norm (s.boundViolations z.primal))
  let dualResidual :=
    Scalar.hypot (Vec.norm (s.costViolations z.dual)) (Vec.norm (s.signViolations z.dual))
  { iteration, passes, elapsed, primalObjective, dualObjective, gap, primalResidual, dualResidual
    error := Scalar.sqrt (primalResidual * primalResidual + dualResidual * dualResidual + gap * gap)
    primalMove := Vec.norm (s.unscalePrimal move.primal)
    dualMove := Vec.norm (s.unscaleDual move.dual) }

/-- The examination of a scaled iterate whose sizes, and those of the displacement
    and of the factors, fit the problem. -/
def evaluate? (s : Scaled α) (z move : Iterate α) (iteration : Nat) (passes elapsed : Float) :
    Except Fault (Record α) := do
  Fault.checkLength s.problem.cols s.variableFactors.size
  Fault.checkLength s.problem.rows s.constraintFactors.size
  Fault.checkLength s.problem.cols z.primal.size
  Fault.checkLength s.problem.rows z.dual.size
  Fault.checkLength s.problem.cols move.primal.size
  Fault.checkLength s.problem.rows move.dual.size
  return s.evaluate z move iteration passes elapsed

end Scaled

end HybridGradient
