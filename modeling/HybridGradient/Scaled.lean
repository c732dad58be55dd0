import HybridGradient.Problem

/-!
# Scaled problems

A problem together with the factors by which its variables and constraints were
scaled. With the diagonal matrices `V` and `R` of the two, the scaled matrix
is `R⁻¹ A V⁻¹`, the scaled objective and right-hand side are `V⁻¹ c` and
`R⁻¹ b`, and the scaled bounds `V l` and `V u`. A point `x` with multipliers `y`
of the given problem has the images `V x` and `R y`.

* `Scaled.identity`: all factors are one;
* `Scaled.scalePrimal?`, `Scaled.unscalePrimal?` and their duals: the images
  and the preimages.
-/

namespace HybridGradient

/-- A scaled problem and the factors that led to it. -/
structure Scaled (α : Type) where
  /-- The problem after scaling. -/
  problem : Problem α
  /-- The factor of each variable. -/
  variableFactors : Vec α
  /-- The factor of each constraint. -/
  constraintFactors : Vec α

namespace Scaled

variable {α : Type} [Scalar α]

/-- A problem as it is, all factors being one. -/
def identity (p : Problem α) : Scaled α where
  problem := p
  variableFactors := Vec.ones p.cols
  constraintFactors := Vec.ones p.rows

/-- The multiple of a vector by a diagonal matrix of factors. The sum with zero
    leaves no negative zero. -/
def image (factors x : Vec α) : Vec α :=
  Vec.addDiagonal 1 factors x 0 (Vec.zeros x.size)

/-- The image of a point. -/
def scalePrimal (s : Scaled α) (x : Vec α) : Vec α := image s.variableFactors x

/-- The image of multipliers. -/
def scaleDual (s : Scaled α) (y : Vec α) : Vec α := image s.constraintFactors y

/-- The point with a given image. -/
def unscalePrimal (s : Scaled α) (x : Vec α) : Vec α := Vec.divide s.variableFactors x

/-- The multipliers with a given image. -/
def unscaleDual (s : Scaled α) (y : Vec α) : Vec α := Vec.divide s.constraintFactors y

/-! ### Sizes -/

@[simp] theorem size_image (factors x : Vec α) :
    (image factors x).size = min factors.size x.size := by
  rw [image, Vec.size_addDiagonal, Vec.size_zeros]
  omega

/-! ### With checked lengths -/

/-- The image of a point with a component for each factor. -/
def scalePrimal? (s : Scaled α) (x : Vec α) : Except Fault (Vec α) := do
  Fault.checkLength s.variableFactors.size x.size
  return s.scalePrimal x

/-- The image of multipliers, one for each factor. -/
def scaleDual? (s : Scaled α) (y : Vec α) : Except Fault (Vec α) := do
  Fault.checkLength s.constraintFactors.size y.size
  return s.scaleDual y

/-- The point with a given image, which has a component for each factor. -/
def unscalePrimal? (s : Scaled α) (x : Vec α) : Except Fault (Vec α) := do
  Fault.checkLength s.variableFactors.size x.size
  return s.unscalePrimal x

/-- The multipliers with a given image, which has a component for each factor. -/
def unscaleDual? (s : Scaled α) (y : Vec α) : Except Fault (Vec α) := do
  Fault.checkLength s.constraintFactors.size y.size
  return s.unscaleDual y

end Scaled

end HybridGradient
