/-!
# Scalars

The arithmetic in which the whole library computes. A `Scalar` names the
operations and asks no law of them: an instance may round, overflow, and hold
values that are no numbers. What is computed over a `Scalar` is therefore
exactly the sequence of operations that is written down, and a statement about
every `Scalar` is one about that sequence.

* `Scalar.lesser`, `Scalar.greater`: the extremes of two scalars, in which a
  value that is no number gives way to one that is;
* `Scalar.positivePart`, `Scalar.clamp`: both decided by strict comparisons, so
  a value that compares with nothing passes through them unchanged.
-/

namespace HybridGradient

/-- The operations of an arithmetic, no law being asked of them. -/
class Scalar (α : Type) extends Zero α, One α, Add α, Sub α, Mul α, Div α, Neg α, LT α, LE α,
    BEq α where
  /-- The strict order can be decided. -/
  decLt : DecidableLT α
  /-- The order can be decided. -/
  decLe : DecidableLE α
  /-- The magnitude. -/
  abs : α → α
  /-- The square root. -/
  sqrt : α → α
  /-- The length of the hypotenuse over two legs. -/
  hypot : α → α → α
  /-- What stands for an absent upper bound. -/
  infinity : α
  /-- Whether a value is a number other than the two infinities. -/
  isFinite : α → Bool
  /-- The scalar nearest to a binary64 number. -/
  ofBinary64 : Float → α

namespace Scalar

attribute [reducible, instance] decLt decLe

variable {α : Type} [Scalar α]

/-- The reciprocal. -/
def recip (x : α) : α := 1 / x

/-- The lesser of two values, or the one that is a number if only one is. -/
def lesser (a b : α) : α := if a < b ∨ (b == b) = false then a else b

/-- The greater of two values, or the one that is a number if only one is. -/
def greater (a b : α) : α := if b < a ∨ (b == b) = false then a else b

/-- Zero in place of what is below zero; anything else as it is. -/
def positivePart (v : α) : α := if v < 0 then 0 else v

/-- The bound in place of what lies beyond it; anything else as it is. -/
def clamp (lower upper v : α) : α :=
  if v < lower then lower else if upper < v then upper else v

/-- The power `acc * base ^ n`, by squaring `base` and taking up the squares at
    the binary digits of `n`, least digit first. -/
def powAux (base acc : α) (n : Nat) : α :=
  let acc := if n % 2 = 1 then acc * base else acc
  if h : n / 2 = 0 then acc else powAux (base * base) acc (n / 2)
termination_by n
decreasing_by omega

/-- One over the `n`-th power of ten. -/
def tenth (n : Nat) : α := recip (powAux (ofBinary64 10) 1 n)

end Scalar

end HybridGradient
