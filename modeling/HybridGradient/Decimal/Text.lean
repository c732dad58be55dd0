import HybridGradient.Decimal.Shortest

/-!
# Numbers as text

The forms in which numbers are written. A sign stands only before what is
negative, zero included, and what is no number has none.

* `Binary.fixed`: a fixed number of places;
* `Binary.scientific`: one digit before the point, a fixed number after it, and
  an exponent;
* `Binary.compact`: the shortest decimal in scientific form;
* `Binary.plain`: the shortest decimal, without an exponent as long as it is
  from -4 to 15.
-/

namespace HybridGradient

open Float.Model

namespace Decimal

/-- The digits of a natural number. -/
def digitsOf (n : Nat) : List Char := Nat.toDigits 10 n

/-- Digits with a point after the first one, if others follow. -/
def pointed : List Char → List Char
  | d :: d' :: ds => d :: '.' :: d' :: ds
  | ds => ds

/-- An exponent after its mark. -/
def exponentText (e : Int) : List Char :=
  if e < 0 then 'e' :: '-' :: digitsOf e.natAbs else 'e' :: digitsOf e.natAbs

/-- A decimal with one digit before the point and an exponent. -/
def scientificText (d : Decimal) : List Char :=
  pointed (digitsOf d.digits) ++ exponentText d.exponent

/-- A decimal without an exponent, with at least one digit on both sides of the
    point. -/
def positionalText (d : Decimal) : List Char :=
  let ds := digitsOf d.digits
  if d.exponent < 0 then
    '0' :: '.' :: List.replicate (d.exponent.natAbs - 1) '0' ++ ds
  else
    let whole := d.exponent.toNat + 1
    let ds := ds ++ List.replicate (whole - ds.length) '0'
    ds.take whole ++ '.' :: (if ds.length ≤ whole then ['0'] else ds.drop whole)

/-- A natural number of units in the last of `places` places, written with a point
    before these. -/
def placesText (n places : Nat) : List Char :=
  let ds := digitsOf n
  let ds := List.replicate (places + 1 - ds.length) '0' ++ ds
  ds.take (ds.length - places) ++ '.' :: ds.drop (ds.length - places)

end Decimal

/-- The sign of a number, as far as it is written. -/
def signText : UnpackedFloat.Sign → List Char
  | .positive => []
  | .negative => ['-']

/-- The text of an unpacked number, given what is written for zero and for a finite
    magnitude. -/
def unpackedText (zero : List Char) (finite : Nat → Int → List Char) :
    UnpackedFloat → String
  | .notANumber => "NaN"
  | .infinity s => String.ofList (signText s ++ ['i', 'n', 'f'])
  | .zero s => String.ofList (signText s ++ zero)
  | .finite s m e _ => String.ofList (signText s ++ finite m e)

/-- The numerator of the number `m * 2 ^ e`. -/
def binaryNum (m : Nat) (e : Int) : Nat := m <<< e.toNat

/-- The denominator of the number `m * 2 ^ e`. -/
def binaryDen (e : Int) : Nat := 1 <<< (-e).toNat

namespace Binary

variable {α : Type} [Binary α]

/-- A number with a fixed number of places, rounded to nearest and ties to even. -/
def fixed (places : Nat) (x : α) : String :=
  unpackedText (Decimal.placesText 0 places)
    (fun m e =>
      Decimal.placesText (roundQuotient (binaryNum m e * Nat.pow 10 places) (binaryDen e))
        places)
    (unpack x)

/-- A number in scientific form with `places` digits after the point, rounded to
    nearest and ties to even. -/
def scientific (places : Nat) (x : α) : String :=
  unpackedText
    (Decimal.pointed (List.replicate (places + 1) '0') ++ Decimal.exponentText 0)
    (fun m e => (Decimal.ofFraction (binaryNum m e) (binaryDen e) places).scientificText)
    (unpack x)

/-- The shortest decimal that stands for a number, in scientific form. -/
def compact (x : α) : String :=
  unpackedText (Decimal.scientificText ⟨0, 0⟩)
    (fun m e => (Decimal.shortest (format α) m e).scientificText)
    (unpack x)

/-- The shortest decimal that stands for a number. It is written without an exponent
    from `0.0001` on and below `10000000000000000`. -/
def plain (x : α) : String :=
  unpackedText ['0', '.', '0']
    (fun m e =>
      let d := Decimal.shortest (format α) m e
      if -5 < d.exponent ∧ d.exponent < 16 then d.positionalText else d.scientificText)
    (unpack x)

/-! ### Where the forms change -/

-- The exponents at which `plain` turns to scientific form.
example : plain (0.0001 : Float) = "0.0001" := by decide +kernel
example : plain (0.00001 : Float) = "1e-5" := by decide +kernel
example : plain (9007199254740993.0 : Float) = "9007199254740992.0" := by decide +kernel
example : plain (1e16 : Float) = "1e16" := by decide +kernel

-- A half goes to the even digit, and zero keeps its sign.
example : fixed 1 (0.25 : Float) = "0.2" := by decide +kernel
example : fixed 1 (0.75 : Float) = "0.8" := by decide +kernel
example : fixed 1 (-0.0 : Float) = "-0.0" := by decide +kernel
example : scientific 2 (9.996 : Float) = "1.00e1" := by decide +kernel

-- Of two shortest decimals at the same distance, the greater one is taken.
example : compact (Hypot.twoPow (-25)) = "2.9802322387695313e-8" := by decide +kernel

end Binary

end HybridGradient
