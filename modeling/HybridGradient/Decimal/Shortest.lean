import HybridGradient.Scalar.Binary
import HybridGradient.Decimal.Rounding

/-!
# Shortest decimals

The shortest decimal that stands for a binary floating-point number: of the
decimals that are rounded to the number when read, those with the fewest
digits, and of these the one nearest to the number.

The values that are rounded to a number are an interval around it, which
reaches half way to its two neighbours and contains its ends if the significand
is even (`RoundingInterval`). A decimal with a given number of digits in the
interval is not farther from the number than its two neighbours on the grid of
such decimals, so these are all that has to be tried, from one digit on.
-/

namespace HybridGradient

open Float.Model

/-- The values that are rounded to a binary number, as fractions over one
    denominator. -/
structure RoundingInterval where
  /-- The numerator of the lower end. -/
  low : Nat
  /-- The numerator of the number itself. -/
  centre : Nat
  /-- The numerator of the upper end. -/
  high : Nat
  /-- The denominator. -/
  den : Nat
  /-- Whether the ends belong to the interval. -/
  closed : Bool

namespace RoundingInterval

/-- The interval of the number `m * 2 ^ e` of a format. The neighbour below a power
    of two is only half as far as the one above, unless both are subnormal. -/
def ofFinite (f : Format) (m : Nat) (e : Int) : RoundingInterval :=
  let below := if m = 1 <<< (f.mantissaBits - 1) ∧ f.minExponent < e then 1 else 2
  let unit := 1 <<< (e - 2).toNat
  { low := (4 * m - below) * unit
    centre := 4 * m * unit
    high := (4 * m + 2) * unit
    den := 1 <<< (2 - e).toNat
    closed := m % 2 = 0 }

/-- The interval stretched by a power of ten. -/
def shift (i : RoundingInterval) (k : Int) : RoundingInterval :=
  let up := Nat.pow 10 k.toNat
  { low := i.low * up
    centre := i.centre * up
    high := i.high * up
    den := i.den * Nat.pow 10 (-k).toNat
    closed := i.closed }

/-- Whether a natural number lies in the interval. -/
def contains (i : RoundingInterval) (n : Nat) : Bool :=
  if i.closed then i.low ≤ n * i.den ∧ n * i.den ≤ i.high
  else i.low < n * i.den ∧ n * i.den < i.high

/-- The natural number in the interval that is nearest to its centre, if there is
    one. The centre halfway between two is nearest to the greater one. -/
def nearest? (i : RoundingInterval) : Option Nat :=
  let floor := i.centre / i.den
  let towardsNext := 2 * (i.centre % i.den)
  if i.contains floor && (towardsNext < i.den || !i.contains (floor + 1)) then some floor
  else if i.contains (floor + 1) then some (floor + 1)
  else none

end RoundingInterval

namespace Decimal

/-- The decimal with the fewest digits in an interval, whose centre has a leading
    digit worth ten to `e`. Tried are decimals with `places` digits after the leading
    one, and up to `more` further ones; the last resort is the nearest decimal. -/
def shortestFrom (i : RoundingInterval) (e : Int) (places : Nat) : (more : Nat) → Decimal
  | 0 => ofFraction i.centre i.den places
  | more + 1 =>
    match (i.shift (places - e)).nearest? with
    | some n => onGrid n places e
    | none => shortestFrom i e (places + 1) more

/-- The shortest decimal for the number `m * 2 ^ e` of a format. Seventeen digits are
    enough for every number of the two formats. -/
def shortest (f : Format) (m : Nat) (e : Int) : Decimal :=
  let i := RoundingInterval.ofFinite f m e
  shortestFrom i (leadingExponent i.centre i.den) 0 17

end Decimal

end HybridGradient
