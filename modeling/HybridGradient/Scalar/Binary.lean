import HybridGradient.Scalar.Basic
import HybridGradient.Scalar.Hypot

/-!
# Binary scalars

The two arithmetics with which the library runs: binary64 and binary32, each
operation rounded by itself, to nearest and ties to even.

* `Binary`: a scalar type whose values are binary floating-point numbers of one
  format, and can be unpacked into sign, significand and exponent. Printing a
  number asks for this view, computing does not.
-/

namespace HybridGradient

open Float.Model

instance : Scalar Float where
  zero := 0
  one := 1
  decLt := inferInstance
  decLe := inferInstance
  abs := Float.abs
  sqrt := Float.sqrt
  hypot := Hypot.binary64
  infinity := Float.ofBits 0x7FF0000000000000
  isFinite := Float.isFinite
  ofBinary64 x := x

instance : Scalar Float32 where
  zero := 0
  one := 1
  decLt := inferInstance
  decLe := inferInstance
  abs := Float32.abs
  sqrt := Float32.sqrt
  hypot := Hypot.binary32
  infinity := Float32.ofBits 0x7F800000
  isFinite := Float32.isFinite
  ofBinary64 := narrow

/-- A type of binary floating-point numbers of one format. -/
class Binary (α : Type) where
  /-- The format, which says where two neighbouring numbers lie. -/
  format : Format
  /-- A number as sign, significand and exponent. -/
  unpack : α → UnpackedFloat

instance : Binary Float where
  format := .binary64
  unpack x := x.toModel.unpack

instance : Binary Float32 where
  format := .binary32
  unpack x := x.toModel.unpack

end HybridGradient
