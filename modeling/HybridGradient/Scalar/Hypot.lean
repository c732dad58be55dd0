/-!
# Change of width and hypotenuse

Conversions between the binary64 and the binary32 numbers, by way of the
unpacked form that both share: a number of one format is read as sign,
significand and exponent, and rounded into the other format.

And the length of the hypotenuse over two legs, without the overflow and underflow
of the squares.

* In binary64 the legs are brought into a range in which their squares are
  safe, and the rounding error of the root is estimated and taken off.
* In binary32 the squares and their sum are computed in binary64, where they
  can neither overflow nor vanish.

In both an infinite leg has an infinite hypotenuse, whatever the other leg is.
-/

namespace HybridGradient

/-! ### Change of width -/

section

open Float.Model

/-- An unpacked number rounded, to nearest and ties to even, into a format.
    Zeros, infinities and what is no number belong to every format. -/
def recast (f : Format) : UnpackedFloat → UnpackedFloat
  | .finite s m e _ => UnpackedFloat.round f s m e
  | u => u

/-- The binary32 number nearest to a binary64 number. -/
def narrow (x : Float) : Float32 :=
  ⟨Float32.Model.pack (recast .binary32 x.toModel.unpack)⟩

/-- A binary32 number as a binary64 number. The format is wider in exponent and
    significand, so nothing is lost. -/
def widen (x : Float32) : Float :=
  ⟨Float.Model.pack (recast .binary64 x.toModel.unpack)⟩

end

/-! ### Hypotenuse -/

namespace Hypot

/-- The power of two with a given exponent, which must be that of a normal
    binary64 number. -/
def twoPow (k : Int) : Float := Float.ofBits (UInt64.ofNat (k + 1023).toNat <<< 52)

/-- The hypotenuse over a long and a short leg whose squares are safe. The root
    `h` of the rounded sum of squares is corrected by `(h² - long² - short²) / 2h`,
    computed from the difference of `h` to the leg it is closer to. -/
def ofLegs (long short : Float) : Float :=
  let h := (long * long + short * short).sqrt
  if h ≤ 2 * short then
    let d := h - short
    let t₁ := long * (2 * d - long)
    let t₂ := (d - 2 * (long - short)) * d
    h - (t₁ + t₂) / (2 * h)
  else
    let d := h - long
    let t₁ := 2 * d * (long - 2 * short)
    let t₂ := (4 * d - short) * short + d * d
    h - (t₁ + t₂) / (2 * h)

/-- The hypotenuse in binary64. A short leg that is below half a unit in the
    last place of the long one is only added to it. -/
def binary64 (x y : Float) : Float :=
  let x := x.abs
  let y := y.abs
  if x.isInf || y.isInf then Float.ofBits 0x7FF0000000000000
  else if x.isNaN || y.isNaN then x + y
  else
    let long := if x < y then y else x
    let short := if x < y then x else y
    let shrink := twoPow (-600)
    let negligible := twoPow (-54)
    if twoPow 511 < long then
      if short ≤ long * negligible then long + short
      else ofLegs (long * shrink) (short * shrink) / shrink
    else if short < twoPow (-459) then
      if short / negligible ≤ long then long + short
      else ofLegs (long / shrink) (short / shrink) * shrink
    else if short ≤ long * negligible then long + short
    else ofLegs long short

/-- The hypotenuse in binary32. -/
def binary32 (x y : Float32) : Float32 :=
  if x.isInf || y.isInf then Float32.ofBits 0x7F800000
  else
    let x := widen x
    let y := widen y
    narrow (x * x + y * y).sqrt

end Hypot

end HybridGradient
