import HybridGradient.Scalar.Basic
import Mathlib.Analysis.Real.Sqrt
import Mathlib.Data.Sign.Basic

/-!
# Exact arithmetic

The real numbers with two infinities and a value that is no number, as a
`Scalar`: nothing is rounded, and otherwise every operation answers as binary
floating-point arithmetic does. There is one zero only, which divides as a
positive number would.

* `Extended.infinite`: the infinity of a sign, which is what products and
  quotients without a real value come to;
* `Extended.ofBinary64`: the exact value of a binary64 number;
* the operations on real values are those of the real numbers, as long as no
  square root of a negative number is taken and nothing divided by zero.
-/

namespace HybridGradient

open Float.Model

/-- What the numeral two rests on has a name, so that it is one and the same wherever the
    numeral stands. -/
instance atLeastTwo_two : Nat.AtLeastTwo 2 := ⟨le_rfl⟩

/-- The same for the numeral four. -/
instance atLeastTwo_four : Nat.AtLeastTwo 4 := ⟨by decide⟩

/-- A real number, an infinity, or no number. -/
inductive Extended where
  | real (x : ℝ)
  | top
  | bot
  | undefined

namespace Extended

noncomputable section

/-! ### Operations -/

/-- The sign of a value, which is zero for what is no number. -/
def sign : Extended → SignType
  | real x => SignType.sign x
  | top => 1
  | bot => -1
  | undefined => 0

/-- The infinity with a sign. Without a sign there is none. -/
def infinite : SignType → Extended
  | .pos => top
  | .neg => bot
  | .zero => undefined

/-- The negative. -/
def neg : Extended → Extended
  | real x => real (-x)
  | top => bot
  | bot => top
  | undefined => undefined

/-- The sum. Opposite infinities have none. -/
def add : Extended → Extended → Extended
  | real x, real y => real (x + y)
  | undefined, _ => undefined
  | _, undefined => undefined
  | top, bot => undefined
  | bot, top => undefined
  | top, _ => top
  | _, top => top
  | bot, _ => bot
  | _, bot => bot

/-- The product. Zero and an infinity have none. -/
def mul : Extended → Extended → Extended
  | real x, real y => real (x * y)
  | a, b => infinite (a.sign * b.sign)

/-- The quotient. Two zeros and two infinities have none. -/
def div : Extended → Extended → Extended
  | real x, real y => if y = 0 then infinite (SignType.sign x) else real (x / y)
  | real _, top => real 0
  | real _, bot => real 0
  | top, real y => if y < 0 then bot else top
  | bot, real y => if y < 0 then top else bot
  | _, _ => undefined

/-- The magnitude. -/
def abs : Extended → Extended
  | real x => real |x|
  | top => top
  | bot => top
  | undefined => undefined

/-- The square root. What is negative has none. -/
def sqrt : Extended → Extended
  | real x => if x < 0 then undefined else real √x
  | top => top
  | _ => undefined

/-- The length of the hypotenuse, which is infinite if a leg is. -/
def hypot : Extended → Extended → Extended
  | real x, real y => real √(x * x + y * y)
  | top, _ => top
  | bot, _ => top
  | _, top => top
  | _, bot => top
  | _, _ => undefined

/-- The strict order, in which no number takes no part. -/
def Below : Extended → Extended → Prop
  | real x, real y => x < y
  | real _, top => True
  | bot, real _ => True
  | bot, top => True
  | _, _ => False

/-- Whether a value is a real number. -/
def isReal : Extended → Bool
  | real _ => true
  | _ => false

/-- The exact value of an unpacked floating-point number. -/
def ofUnpacked : UnpackedFloat → Extended
  | .infinity .positive => top
  | .infinity .negative => bot
  | .notANumber => undefined
  | .zero _ => real 0
  | .finite s m e _ => real (s.apply m * 2 ^ e)

/-- The exact value of a binary64 number. -/
def ofBinary64 (x : Float) : Extended := ofUnpacked x.toModel.unpack

open Classical in
instance : Scalar Extended where
  zero := real 0
  one := real 1
  add := add
  sub a b := add a (neg b)
  mul := mul
  div := div
  neg := neg
  lt := Below
  le a b := Below a b ∨ a = b ∧ a ≠ undefined
  beq a b := decide (a = b ∧ a ≠ undefined)
  decLt := Classical.decRel _
  decLe := Classical.decRel _
  abs := abs
  sqrt := sqrt
  hypot := hypot
  infinity := top
  isFinite := isReal
  ofBinary64 := ofBinary64

end

/-! ### On real values -/

theorem real_injective : Function.Injective real := fun _ _ h => real.inj h

theorem zero_eq : (0 : Extended) = real 0 := rfl

theorem one_eq : (1 : Extended) = real 1 := rfl

@[simp] theorem neg_real (x : ℝ) : -real x = real (-x) := rfl

@[simp] theorem add_real (x y : ℝ) : real x + real y = real (x + y) := rfl

@[simp] theorem sub_real (x y : ℝ) : real x - real y = real (x - y) :=
  congrArg real (sub_eq_add_neg x y).symm

@[simp] theorem mul_real (x y : ℝ) : real x * real y = real (x * y) := rfl

theorem div_real (x : ℝ) {y : ℝ} (h : y ≠ 0) : real x / real y = real (x / y) := if_neg h

theorem div_zero (x : ℝ) : real x / real 0 = infinite (SignType.sign x) := if_pos rfl

theorem recip_real {x : ℝ} (h : x ≠ 0) : Scalar.recip (real x) = real x⁻¹ := by
  rw [Scalar.recip, one_eq, div_real 1 h, one_div]

@[simp] theorem abs_real (x : ℝ) : Scalar.abs (real x) = real |x| := rfl

theorem sqrt_real {x : ℝ} (h : 0 ≤ x) : Scalar.sqrt (real x) = real √x := if_neg (not_lt.2 h)

@[simp] theorem hypot_real (x y : ℝ) :
    Scalar.hypot (real x) (real y) = real √(x * x + y * y) := rfl

@[simp] theorem isFinite_real (x : ℝ) : Scalar.isFinite (real x) = true := rfl

theorem isFinite_iff {a : Extended} : Scalar.isFinite a = true ↔ ∃ x, a = real x := by
  cases a with
  | real x => exact ⟨fun _ => ⟨x, rfl⟩, fun _ => rfl⟩
  | top | bot | undefined => exact ⟨fun h => Bool.noConfusion h, fun ⟨_, h⟩ => nomatch h⟩

@[simp] theorem real_lt_real {x y : ℝ} : real x < real y ↔ x < y := Iff.rfl

@[simp] theorem real_le_real {x y : ℝ} : real x ≤ real y ↔ x ≤ y := by
  change x < y ∨ real x = real y ∧ real x ≠ undefined ↔ x ≤ y
  rw [real_injective.eq_iff, le_iff_lt_or_eq]
  exact or_congr_right (and_iff_left nofun)

open Classical in
@[simp] theorem real_beq_real {x y : ℝ} : (real x == real y) = true ↔ x = y := by
  change decide (real x = real y ∧ real x ≠ undefined) = true ↔ x = y
  rw [decide_eq_true_iff, real_injective.eq_iff]
  exact and_iff_left nofun

@[simp] theorem real_beq_zero {x : ℝ} : (real x == 0) = true ↔ x = 0 := real_beq_real

@[simp] theorem zero_lt_real {x : ℝ} : 0 < real x ↔ 0 < x := Iff.rfl

@[simp] theorem real_lt_zero {x : ℝ} : real x < 0 ↔ x < 0 := Iff.rfl

@[simp] theorem positivePart_real (x : ℝ) : Scalar.positivePart (real x) = real (max x 0) := by
  rw [Scalar.positivePart]
  by_cases h : x < 0
  · rw [if_pos (real_lt_zero.2 h), max_eq_right h.le, zero_eq]
  · rw [if_neg (mt real_lt_zero.1 h), max_eq_left (not_lt.1 h)]

/-! ### The order -/

theorem bot_le_real (t : ℝ) : bot ≤ real t := .inl trivial

theorem real_le_top (t : ℝ) : real t ≤ top := .inl trivial

theorem not_top_le_real (t : ℝ) : ¬ top ≤ real t := fun h => h.elim id fun h => nomatch h.1

theorem not_real_le_bot (t : ℝ) : ¬ real t ≤ bot := fun h => h.elim id fun h => nomatch h.1

theorem not_undefined_le (a : Extended) : ¬ undefined ≤ a :=
  fun h => h.elim (by cases a <;> exact id) fun h => absurd rfl h.2

theorem not_le_undefined (a : Extended) : ¬ a ≤ undefined := by
  intro h
  rcases h with h | ⟨rfl, h⟩
  · cases a <;> exact h
  · exact h rfl

theorem not_lt_self (a : Extended) : ¬ a < a := by
  cases a with
  | real x => exact lt_irrefl x
  | top | bot | undefined => exact id

theorem not_undefined_lt (a : Extended) : ¬ undefined < a := by
  cases a <;> exact id

theorem not_lt_undefined (a : Extended) : ¬ a < undefined := by
  cases a <;> exact id

theorem lt_asymm {a b : Extended} (h : a < b) : ¬ b < a := by
  cases a <;> cases b
  case real.real => exact (real_lt_real.1 h).not_gt
  all_goals first
    | exact id
    | exact absurd h id

theorem not_le_of_lt {a b : Extended} (h : a < b) : ¬ b ≤ a := by
  rintro (h' | ⟨rfl, -⟩)
  · exact lt_asymm h h'
  · exact not_lt_self b h

theorem lt_of_lt_of_le {u : Extended} {s t : ℝ} (hst : s < t) (hu : real t ≤ u) : real s < u := by
  cases u with
  | real u => exact real_lt_real.2 (hst.trans_le (real_le_real.1 hu))
  | top => exact trivial
  | bot => exact absurd hu (not_real_le_bot t)
  | undefined => exact absurd hu (not_le_undefined _)

end Extended

end HybridGradient
