import HybridGradient.SparseMatrix.Basic

/-!
# Products of a sparse matrix and a vector

The products `alpha * A * x + beta * y` and `alpha * Aᵀ * x + beta * y`. Both
start from `beta * y` and go through the stored entries once, each adding its
share to one component; they differ in which of row and column is read and
which is written. The vector `y` does not matter where `beta` is zero, not even
if it holds infinities or values that are no numbers.
-/

namespace HybridGradient

namespace SparseMatrix

variable {α : Type} [Scalar α]

/-- The value of a multiple `beta * y` at the start of a product. -/
def preset (beta : α) (y : Vec α) : Vec α :=
  if beta == 0 then Vec.zeros y.size else Vec.scale beta y

/-- Adds the share of every entry: `alpha` times its value times the component
    of `x` at its source goes to the component at its target. -/
def accumulate (target source : Entry α → Nat) (alpha : α) (x : Vec α)
    (entries : List (Entry α)) (y : Vec α) : Vec α :=
  entries.foldl
    (fun y e => y.modify (target e) (· + alpha * e.value * x.getD (source e) 0)) y

/-- The product `alpha * A * x + beta * y`. -/
def product (A : SparseMatrix α) (alpha : α) (x : Vec α) (beta : α) (y : Vec α) : Vec α :=
  accumulate Entry.row Entry.col alpha x A.entries (preset beta y)

/-- The product `alpha * Aᵀ * x + beta * y`. -/
def transposeProduct (A : SparseMatrix α) (alpha : α) (x : Vec α) (beta : α) (y : Vec α) : Vec α :=
  accumulate Entry.col Entry.row alpha x A.entries (preset beta y)

/-! ### Sizes -/

@[simp] theorem size_preset (beta : α) (y : Vec α) : (preset beta y).size = y.size := by
  rw [preset]
  split
  · exact Vec.size_zeros _
  · exact Vec.size_scale _ _

@[simp] theorem size_accumulate (target source : Entry α → Nat) (alpha : α) (x : Vec α)
    (entries : List (Entry α)) (y : Vec α) :
    (accumulate target source alpha x entries y).size = y.size := by
  induction entries generalizing y with
  | nil => rfl
  | cons e es ih => exact (ih _).trans Array.size_modify

@[simp] theorem size_product (A : SparseMatrix α) (alpha : α) (x : Vec α) (beta : α) (y : Vec α) :
    (A.product alpha x beta y).size = y.size := by
  rw [product, size_accumulate, size_preset]

@[simp] theorem size_transposeProduct (A : SparseMatrix α) (alpha : α) (x : Vec α) (beta : α)
    (y : Vec α) : (A.transposeProduct alpha x beta y).size = y.size := by
  rw [transposeProduct, size_accumulate, size_preset]

/-! ### With checked lengths -/

/-- The product `alpha * A * x + beta * y` of a matrix and vectors that fit. -/
def product? (A : SparseMatrix α) (alpha : α) (x : Vec α) (beta : α) (y : Vec α) :
    Except Fault (Vec α) := do
  Fault.checkLength A.cols x.size
  Fault.checkLength A.rows y.size
  return A.product alpha x beta y

/-- The product `alpha * Aᵀ * x + beta * y` of a matrix and vectors that fit. -/
def transposeProduct? (A : SparseMatrix α) (alpha : α) (x : Vec α) (beta : α) (y : Vec α) :
    Except Fault (Vec α) := do
  Fault.checkLength A.rows x.size
  Fault.checkLength A.cols y.size
  return A.transposeProduct alpha x beta y

end SparseMatrix

end HybridGradient
