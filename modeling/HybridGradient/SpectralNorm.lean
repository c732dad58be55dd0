import HybridGradient.SparseMatrix.Product

/-!
# The spectral norm

The largest singular value of a matrix `A`, estimated by the power method on
`Aᵀ A`: a vector is multiplied by it and brought back to unit length, again and
again, and its length before that approaches the square of the norm.

* `startVector`: a fixed vector of unit length with distinct positive
  components for each seed, taken from a multiplicative hash of the indices;
* `powerMethod`: the iteration from one vector, which ends early when the
  estimate settles, when it is no number, or when the matrix annihilates the
  vector;
* `SpectralNorm.estimate`: the estimate from the first start vector that the
  matrix does not annihilate, and zero if it annihilates all of them.
-/

namespace HybridGradient

namespace SpectralNorm

variable {α : Type} [Scalar α]

/-- A number from 0.5 to 1.5 for each index, different for each seed. -/
def startComponent (seed : UInt64) (j : Nat) : Float :=
  let hash := ((seed <<< 32) ^^^ (UInt64.ofNat j + 1)) * 0x9E3779B97F4A7C15
  0.5 + (hash >>> 11).toFloat / 9007199254740992.0

/-- The start vector of a seed, of unit length. -/
def startVector (n : Nat) (seed : UInt64) : Vec α :=
  let v := Array.ofFn fun j : Fin n => Scalar.ofBinary64 (startComponent seed j)
  Vec.scale (Scalar.recip (Vec.norm v)) v

/-- How the power method ends. -/
inductive Outcome (α : Type) where
  /-- The matrix annihilates the vector. -/
  | annihilated
  /-- An estimate of the norm, and the pass at which it settled, if it did. -/
  | estimated (norm : α) (settledAt : Option Nat)

/-- The image of a vector under `Aᵀ A`. -/
def gram (A : SparseMatrix α) (v : Vec α) : Vec α :=
  A.transposeProduct 1 (A.product 1 v 0 (Vec.zeros A.rows)) 0 (Vec.zeros A.cols)

@[simp] theorem size_gram (A : SparseMatrix α) (v : Vec α) : (gram A v).size = A.cols := by
  rw [gram, SparseMatrix.size_transposeProduct, Vec.size_zeros]

/-- The power method, `remaining` passes from pass `i` on, at a vector `v` and
    with `square` as the estimate so far of the square of the norm. -/
def powerMethodFrom (A : SparseMatrix α) (tolerance : α) :
    (remaining : Nat) → (i : Nat) → (v : Vec α) → (square : α) → Outcome α
  | 0, _, _, square => .estimated (Scalar.sqrt square) none
  | remaining + 1, i, v, square =>
    let w := gram A v
    let length := Vec.norm w
    if length == 0 then .annihilated
    -- A length that compares with nothing is handed on as it is.
    else if ¬ 0 < length then .estimated length none
    else if Scalar.abs (length - square) ≤ tolerance * length then
      .estimated (Scalar.sqrt length) (some i)
    else powerMethodFrom A tolerance remaining (i + 1) (Vec.scale (Scalar.recip length) w) length

/-- The power method from a vector, with at most `passes` passes. -/
def powerMethod (A : SparseMatrix α) (passes : Nat) (tolerance : α) (v : Vec α) : Outcome α :=
  powerMethodFrom A tolerance passes 0 v 0

/-- An estimate of the norm and how it was found. -/
structure Estimate (α : Type) where
  /-- The estimate. -/
  norm : α
  /-- The seeds of the start vectors that the matrix annihilates. -/
  annihilated : List Nat
  /-- The pass at which the estimate settled, if it did. -/
  settledAt : Option Nat

/-- The estimate from the first start vector, of those with the given seeds, that
    is not annihilated. -/
def estimateFrom (A : SparseMatrix α) (passes : Nat) (tolerance : α) : List Nat → Estimate α
  | [] => ⟨0, [], none⟩
  | seed :: seeds =>
    match powerMethod A passes tolerance (startVector A.cols (UInt64.ofNat seed)) with
    | .estimated norm settledAt => ⟨norm, [], settledAt⟩
    | .annihilated =>
      let e := estimateFrom A passes tolerance seeds
      { e with annihilated := seed :: e.annihilated }

/-- The estimate of the norm of a matrix, from three start vectors at most. A
    matrix without rows or columns has norm zero. -/
def estimate (A : SparseMatrix α) (passes : Nat) (tolerance : α) : Estimate α :=
  if A.rows = 0 ∨ A.cols = 0 then ⟨0, [], none⟩
  else estimateFrom A passes tolerance [0, 1, 2]

/-! ### With a checked shape -/

/-- Passes if the images of vectors under a matrix can be addressed. Where there are no
    columns, no image is formed. The rows of a linear program always pass, as it holds a
    right-hand side for each of them. -/
def checkRows (A : SparseMatrix α) : Except Fault Unit :=
  if A.cols = 0 then .ok () else Fault.checkAddressable A.rows

/-- The estimate of the norm of a matrix that has not too many rows. -/
def estimate? (A : SparseMatrix α) (passes : Nat) (tolerance : α) : Except Fault (Estimate α) := do
  checkRows A
  return estimate A passes tolerance

end SpectralNorm

end HybridGradient
