/-!
# Rounding to decimals

Positive fractions `num / den` of natural numbers, rounded to a number of
decimal digits. All of it is exact arithmetic on natural numbers.

* `roundQuotient`: the natural number nearest to a fraction, of two the even
  one;
* `leadingExponent`: the place of the leading digit;
* `Decimal.ofFraction`: a number of digits from the leading one on.
-/

namespace HybridGradient

/-- The number of decimal digits of a natural number; zero has one. -/
def digitCount (n : Nat) : Nat := if n < 10 then 1 else digitCount (n / 10) + 1

/-- The natural number nearest to a fraction, and of two equally near ones the even
    one. -/
def roundQuotient (num den : Nat) : Nat :=
  let q := num / den
  let r := num % den
  if 2 * r < den then q else if den < 2 * r then q + 1 else q + q % 2

/-- The exponent of the greatest power of ten that is at most a positive fraction. -/
def leadingExponent (num den : Nat) : Int :=
  if den ≤ num then (digitCount (num / den) : Int) - 1 else -digitCount ((den - 1) / num)

/-- The fraction `num / den` times a power of ten, as numerator and denominator. -/
def shiftDecimal (num den : Nat) (k : Int) : Nat × Nat :=
  (num * Nat.pow 10 k.toNat, den * Nat.pow 10 (-k).toNat)

/-- A decimal number in scientific form: digits, of which the first is worth ten to
    the exponent, the second a tenth of that, and so on. -/
structure Decimal where
  /-- The digits, read as a natural number. -/
  digits : Nat
  /-- The exponent of the first digit. -/
  exponent : Int
  deriving Repr, DecidableEq

namespace Decimal

/-- The decimal for `n` on the grid on which a leading digit worth ten to `exponent`
    is followed by `places` digits. If `n` has one digit more than that, it is a
    power of ten, and its leading digit is worth ten times as much. -/
def onGrid (n places : Nat) (exponent : Int) : Decimal :=
  if Nat.pow 10 (places + 1) ≤ n then ⟨n / 10, exponent + 1⟩ else ⟨n, exponent⟩

/-- A positive fraction with its leading digit and `places` digits after it, rounded
    to nearest and ties to even. -/
def ofFraction (num den places : Nat) : Decimal :=
  let e := leadingExponent num den
  let scaled := shiftDecimal num den (places - e)
  onGrid (roundQuotient scaled.1 scaled.2) places e

end Decimal

end HybridGradient
