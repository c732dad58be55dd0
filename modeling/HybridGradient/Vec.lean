import HybridGradient.Scalar.Basic

/-!
# Vectors

Vectors over a `Scalar`, and the handful of operations from which everything
else is built: sums of products, scaling, and the diagonal maps. Each operation
goes through the components in order, and a sum is accumulated from zero on in
that order.

Operations on two vectors are total: where one vector is longer, its surplus is
ignored. The versions with a question mark ask for equal lengths.

What is asked for outside the domain of an operation is a `Fault`: vectors of
lengths that do not fit together, an index beyond the end, records out of order,
more elements than can be addressed. A fault is a mistake of the caller, not an
answer about a problem; operations that can be misused so are named with a
question mark.
-/

namespace HybridGradient

/-! ### Faults -/

/-- A breach of the conditions under which an operation is defined. -/
inductive Fault where
  /-- A vector has not the length that the operation needs. -/
  | length (expected found : Nat)
  /-- A position lies outside the shape. -/
  | outside (row col : Nat)
  /-- A record does not come after the last one. -/
  | order (last next : Nat)
  /-- A period is zero. -/
  | period
  /-- A count does not fit into a machine word any more. -/
  | overflow (count : Nat)
  /-- More elements are asked for than can be addressed. -/
  | tooMany (count : Nat)
  deriving Repr, DecidableEq

/-- Passes if a length is the expected one. -/
def Fault.checkLength (expected found : Nat) : Except Fault Unit :=
  if expected = found then .ok () else .error (.length expected found)

/-- Passes if that many elements, of a machine word each, can be addressed by signed
    offsets in bytes. -/
def Fault.checkAddressable (count : Nat) : Except Fault Unit :=
  if count < 1 <<< 60 then .ok () else .error (.tooMany count)

/-! ### Vectors -/

/-- A vector of scalars. -/
abbrev Vec (α : Type) := Array α

namespace Vec

variable {α : Type} [Scalar α]

/-- The vector of `n` zeros. -/
def zeros (n : Nat) : Vec α := Array.replicate n 0

/-- The vector of `n` ones. -/
def ones (n : Nat) : Vec α := Array.replicate n 1

/-- The sum of the components, from the first to the last. -/
def sum (x : Vec α) : α := x.foldl (· + ·) 0

/-- The sum of the products of corresponding components. -/
def inner (x y : Vec α) : α := sum (Array.zipWith (· * ·) x y)

/-- The root of the sum of squares. -/
def norm (x : Vec α) : α := Scalar.sqrt (inner x x)

/-- The multiple `alpha * x`. -/
def scale (alpha : α) (x : Vec α) : Vec α := x.map (alpha * ·)

/-- The sum `y + alpha * x`. -/
def add (alpha : α) (x y : Vec α) : Vec α := Array.zipWith (fun v u => v + alpha * u) y x

/-- The image `alpha * D * x + beta * y` for the diagonal matrix `D` of `d`. -/
def addDiagonal (alpha : α) (d x : Vec α) (beta : α) (y : Vec α) : Vec α :=
  Array.zipWith (fun p v => p + beta * v) (Array.zipWith (fun a u => alpha * a * u) d x) y

/-- The preimage of `x` under the diagonal matrix of `d`. -/
def divide (d x : Vec α) : Vec α := Array.zipWith (· / ·) x d

/-- The products of corresponding components. -/
def times (x y : Vec α) : Vec α := Array.zipWith (· * ·) x y

/-! ### Sizes -/

@[simp] theorem size_zeros (n : Nat) : (zeros n : Vec α).size = n := Array.size_replicate

@[simp] theorem size_ones (n : Nat) : (ones n : Vec α).size = n := Array.size_replicate

@[simp] theorem size_scale (alpha : α) (x : Vec α) : (scale alpha x).size = x.size :=
  Array.size_map

@[simp] theorem size_add (alpha : α) (x y : Vec α) :
    (add alpha x y).size = min y.size x.size := Array.size_zipWith

@[simp] theorem size_addDiagonal (alpha : α) (d x : Vec α) (beta : α) (y : Vec α) :
    (addDiagonal alpha d x beta y).size = min (min d.size x.size) y.size := by
  rw [addDiagonal, Array.size_zipWith, Array.size_zipWith]

@[simp] theorem size_divide (d x : Vec α) : (divide d x).size = min x.size d.size :=
  Array.size_zipWith

@[simp] theorem size_times (x y : Vec α) : (times x y).size = min x.size y.size :=
  Array.size_zipWith

/-! ### With checked lengths -/

/-- The inner product of two vectors of one length. -/
def inner? (x y : Vec α) : Except Fault α := do
  Fault.checkLength x.size y.size
  return inner x y

/-- The vector `x` in the place of one of the same length. -/
def copy? (x y : Vec α) : Except Fault (Vec α) := do
  Fault.checkLength x.size y.size
  return x

/-- The sum `y + alpha * x` of two vectors of one length. -/
def add? (alpha : α) (x y : Vec α) : Except Fault (Vec α) := do
  Fault.checkLength x.size y.size
  return add alpha x y

/-- The image under a diagonal matrix, all vectors being of one length. -/
def addDiagonal? (alpha : α) (d x : Vec α) (beta : α) (y : Vec α) : Except Fault (Vec α) := do
  Fault.checkLength d.size x.size
  Fault.checkLength d.size y.size
  return addDiagonal alpha d x beta y

/-- The preimage under a diagonal matrix of as many elements. -/
def divide? (d x : Vec α) : Except Fault (Vec α) := do
  Fault.checkLength d.size x.size
  return divide d x

end Vec

end HybridGradient
