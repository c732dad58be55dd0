import HybridGradient.Problem

/-!
# The step of the method

An iterate is a primal and a dual vector, which the method improves together.
One step with step size `t` moves the point against the gradient of the
Lagrangian, then the multipliers along it at the extrapolated point, and
projects both:

    x⁺ = Π_X (x - t (c - Aᵀ y))
    y⁺ = Π_Y (y - t (A (2 x⁺ - x) - b))

The first projection clamps to the bounds, the second one makes the multipliers
of the inequalities nonnegative. Both leave a value that compares with nothing
where it is.
-/

namespace HybridGradient

/-! ### Iterates -/

/-- A point and multipliers. -/
structure Iterate (α : Type) where
  /-- A component for each variable. -/
  primal : Vec α
  /-- A multiplier for each constraint. -/
  dual : Vec α

namespace Iterate

variable {α : Type} [Scalar α]

/-- The iterate of zeros for a number of constraints and variables. -/
def zeros (rows cols : Nat) : Iterate α := ⟨Vec.zeros cols, Vec.zeros rows⟩

/-- The displacement from an iterate `w` to an iterate `z`. -/
def displacement (w z : Iterate α) : Iterate α :=
  ⟨Vec.add (-1) w.primal z.primal, Vec.add (-1) w.dual z.dual⟩

/-- The displacement between two iterates of the same sizes. -/
def displacement? (w z : Iterate α) : Except Fault (Iterate α) := do
  Fault.checkLength w.primal.size z.primal.size
  Fault.checkLength w.dual.size z.dual.size
  return displacement w z

end Iterate

/-! ### Steps -/

namespace Problem

variable {α : Type} [Scalar α]

/-- A point with each component moved to the nearest value within its bounds. -/
def projectPrimal (p : Problem α) (x : Vec α) : Vec α :=
  Array.zipWith (fun (v : α) (b : α × α) => Scalar.clamp b.1 b.2 v) x (Array.zip p.lower p.upper)

/-- Multipliers with those of the inequalities made nonnegative. -/
def projectDual (p : Problem α) (y : Vec α) : Vec α :=
  y.mapIdx fun i v => if i < p.equalities then v else Scalar.positivePart v

/-- The point of the next iterate. -/
def stepPrimal (p : Problem α) (t : α) (z : Iterate α) : Vec α :=
  p.projectPrimal (p.matrix.transposeProduct t z.dual 1 (Vec.add (-t) p.objective z.primal))

/-- Twice a new point minus the old one. -/
def extrapolate (old new : Vec α) : Vec α := Vec.add (-1) old (Vec.scale (1 + 1) new)

/-- The multipliers of the next iterate, whose point is `new`. -/
def stepDual (p : Problem α) (t : α) (z : Iterate α) (new : Vec α) : Vec α :=
  p.projectDual (Vec.add t p.rightSide
    (p.matrix.product (-t) (extrapolate z.primal new) 1 z.dual))

/-- The next iterate. -/
def step (p : Problem α) (t : α) (z : Iterate α) : Iterate α :=
  let new := p.stepPrimal t z
  ⟨new, p.stepDual t z new⟩

/-! ### Sizes -/

theorem size_projectPrimal (p : Problem α) {x : Vec α} (h : x.size = p.matrix.cols) :
    (p.projectPrimal x).size = p.matrix.cols := by
  simp [projectPrimal, h, p.size_lower, p.size_upper]

@[simp] theorem size_projectDual (p : Problem α) (y : Vec α) : (p.projectDual y).size = y.size :=
  Array.size_mapIdx

theorem size_step (p : Problem α) (t : α) {z : Iterate α} (hp : z.primal.size = p.matrix.cols)
    (hd : z.dual.size = p.matrix.rows) :
    (p.step t z).primal.size = p.matrix.cols ∧ (p.step t z).dual.size = p.matrix.rows := by
  constructor
  · refine p.size_projectPrimal ?_
    rw [SparseMatrix.size_transposeProduct, Vec.size_add, p.size_objective, hp, Nat.min_self]
  · rw [step, stepDual, size_projectDual, Vec.size_add, SparseMatrix.size_product, hd,
      p.size_rightSide, Nat.min_self]

/-! ### With checked lengths -/

/-- The projection of a point with a component for each variable. -/
def projectPrimal? (p : Problem α) (x : Vec α) : Except Fault (Vec α) := do
  Fault.checkLength p.lower.size x.size
  return p.projectPrimal x

/-- The projection of multipliers, of which there are enough for the equalities. -/
def projectDual? (p : Problem α) (y : Vec α) : Except Fault (Vec α) :=
  if p.equalities ≤ y.size then .ok (p.projectDual y)
  else .error (.length p.equalities y.size)

/-- The next iterate after one of fitting sizes. -/
def step? (p : Problem α) (t : α) (z : Iterate α) : Except Fault (Iterate α) := do
  Fault.checkLength p.cols z.primal.size
  Fault.checkLength p.rows z.dual.size
  return p.step t z

end Problem

end HybridGradient
