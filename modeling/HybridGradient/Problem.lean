import HybridGradient.SparseMatrix.Product

/-!
# Linear programs

The program

    minimise `c · x`  subject to  `A x = b` in the first rows,
    `A x ≥ b` in the other rows, and `l ≤ x ≤ u`

where `l` and `u` may be infinite.

* `Problem.ofData?`: the data are taken if their sizes fit together, there are
  no more equalities than rows, and no interval from `l` to `u` is empty. A
  bound that compares with nothing leaves its interval empty.
-/

namespace HybridGradient

/-- A linear program. -/
structure Problem (α : Type) where
  /-- The cost of each variable. -/
  objective : Vec α
  /-- The coefficients, a row for each constraint and a column for each variable. -/
  matrix : SparseMatrix α
  /-- The right-hand side of each constraint. -/
  rightSide : Vec α
  /-- How many rows, from the first on, are equalities; the others are inequalities. -/
  equalities : Nat
  /-- The lower bound of each variable. -/
  lower : Vec α
  /-- The upper bound of each variable. -/
  upper : Vec α
  /-- A cost for each variable. -/
  size_objective : objective.size = matrix.cols
  /-- A right-hand side for each constraint. -/
  size_rightSide : rightSide.size = matrix.rows
  /-- A lower bound for each variable. -/
  size_lower : lower.size = matrix.cols
  /-- An upper bound for each variable. -/
  size_upper : upper.size = matrix.cols
  /-- The equalities are among the rows. -/
  equalities_le : equalities ≤ matrix.rows

/-- Why data do not make a linear program. -/
inductive ProblemError where
  /-- The sizes of the data do not fit together. -/
  | sizes (objective rows cols rightSide lower upper : Nat)
  /-- There are more equalities than rows. -/
  | equalities (count rows : Nat)
  /-- No value lies between the bounds of a variable. -/
  | emptyBounds (index : Nat)
  deriving Repr, DecidableEq

namespace ProblemError

/-- What is said of a program that was not accepted. -/
def message (_ : ProblemError) : String :=
  "InvalidProblem: inconsistent problem dimensions or bounds"

/-- The cause, in detail. -/
def detail : ProblemError → String
  | sizes c m n b l u => s!"Size mismatch: c({c}), A({m}, {n}), b({b}), l({l}), u({u})"
  | equalities k m => s!"num_equalities {k} must be <= {m}"
  | emptyBounds j => s!"Bound of variable {j} is empty"

end ProblemError

namespace Problem

variable {α : Type} [Scalar α]

/-- The first variable between whose bounds there is nothing. -/
def emptyBounds? (lower upper : Vec α) : Option Nat :=
  (Array.zip lower upper).findIdx? fun b => !decide (b.1 ≤ b.2)

/-- The linear program with given data. -/
def ofData? (objective : Vec α) (matrix : SparseMatrix α) (rightSide : Vec α) (equalities : Nat)
    (lower upper : Vec α) : Except ProblemError (Problem α) :=
  if sizes : objective.size = matrix.cols ∧ rightSide.size = matrix.rows ∧
      lower.size = matrix.cols ∧ upper.size = matrix.cols then
    if count : equalities ≤ matrix.rows then
      match emptyBounds? lower upper with
      | some j => .error (.emptyBounds j)
      | none => .ok {
          objective, matrix, rightSide, equalities, lower, upper
          size_objective := sizes.1
          size_rightSide := sizes.2.1
          size_lower := sizes.2.2.1
          size_upper := sizes.2.2.2
          equalities_le := count }
    else .error (.equalities equalities matrix.rows)
  else
    .error (.sizes objective.size matrix.rows matrix.cols rightSide.size lower.size upper.size)

/-- The number of constraints. -/
def rows (p : Problem α) : Nat := p.matrix.rows

/-- The number of variables. -/
def cols (p : Problem α) : Nat := p.matrix.cols

/-- The number of constraints that are inequalities. -/
def inequalities (p : Problem α) : Nat := p.rightSide.size - p.equalities

/-- Whether a row is an equality. -/
def isEquality (p : Problem α) (row : Nat) : Bool := row < p.equalities

/-- The cost of a point. -/
def cost? (p : Problem α) (x : Vec α) : Except Fault α := Vec.inner? p.objective x

end Problem

end HybridGradient
