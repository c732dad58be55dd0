import HybridGradient.Proofs.Packing
import HybridGradient.Scalar.Binary

/-!
# Binary scalars and their values

A binary scalar has a value: a real number, an infinity, or none. Comparing two of them is
comparing their values, and the result of an operation is the value of the exact result
rounded to the format, or an infinity where that is too large.

* `LawfulBinary`: the scalars whose operations are those of a binary format, with the two
  instances;
* `Binary.value`: the value, with comparisons (`Binary.lt_iff`, `Binary.le_iff`,
  `Binary.isFinite_iff`) and operations (`Binary.rounds_mul`, `Binary.rounds_div`,
  `Binary.rounds_sqrt`) in terms of it.
-/

namespace HybridGradient

open Extended Float.Model Float.Model.UnpackedFloat

/-! ### Lawful scalars -/

open Rounding

/-- The operations of a scalar type are those of a binary format, applied to what is read and
    stored. The format is no narrower than binary32, and has many more digits in its
    significands than in its exponents. -/
class LawfulBinary (α : Type) [Scalar α] [Binary α] : Prop where
  exponentBits_le : 8 ≤ (Binary.format α).exponentBits
  mantissaBits_le : (Binary.format α).exponentBits + 15 ≤
    (Binary.format α).mantissaBitsWithoutImplicit
  exists_unpack (x : α) : ∃ b, Binary.unpack x = UnpackedFloat.unpack (Binary.format α) b
  unpack_zero : Binary.unpack (0 : α) = .zero .positive
  unpack_one : ofUnpacked (Binary.unpack (1 : α)) = .real 1
  unpack_infinity : Binary.unpack (Scalar.infinity : α) = .infinity .positive
  unpack_add (x y : α) : Binary.unpack (x + y) =
    stored (Binary.format α)
      (UnpackedFloat.add (Binary.format α) (Binary.unpack x) (Binary.unpack y))
  unpack_mul (x y : α) : Binary.unpack (x * y) =
    stored (Binary.format α)
      (UnpackedFloat.mul (Binary.format α) (Binary.unpack x) (Binary.unpack y))
  unpack_div (x y : α) : Binary.unpack (x / y) =
    stored (Binary.format α)
      (UnpackedFloat.div (Binary.format α) (Binary.unpack x) (Binary.unpack y))
  unpack_sqrt (x : α) : Binary.unpack (Scalar.sqrt x) =
    stored (Binary.format α) (UnpackedFloat.sqrt (Binary.format α) (Binary.unpack x))
  unpack_abs (x : α) : Binary.unpack (Scalar.abs x) =
    stored (Binary.format α) (UnpackedFloat.abs (Binary.unpack x))
  lt_iff (x y : α) : x < y ↔ (Binary.unpack x).lt (Binary.unpack y) = true
  le_iff (x y : α) : x ≤ y ↔ (Binary.unpack x).le (Binary.unpack y) = true
  beq_eq (x y : α) : (x == y) = (Binary.unpack x).beq (Binary.unpack y)
  isFinite_eq (x : α) : Scalar.isFinite x = (Binary.unpack x).isFinite

theorem unpack_of_toModel {x : Float} {u : UnpackedFloat} (h : x.toModel = .pack u) :
    Binary.unpack x = stored .binary64 u := by
  change x.toModel.unpack = _
  rw [h]
  rfl

theorem unpack_of_toModel32 {x : Float32} {u : UnpackedFloat} (h : x.toModel = .pack u) :
    Binary.unpack x = stored .binary32 u := by
  change x.toModel.unpack = _
  rw [h]
  rfl

instance : LawfulBinary Float where
  exponentBits_le := by decide
  mantissaBits_le := by decide
  exists_unpack x := ⟨x.toModel.toBits.toBitVec, rfl⟩
  unpack_zero :=
    (unpack_of_toModel (u := .zero .positive) (by decide +kernel)).trans (stored_zero _)
  unpack_one := (congrArg ofUnpacked (unpack_of_toModel (by decide +kernel))).trans
    (ofUnpacked_stored_one (by decide))
  unpack_infinity :=
    (unpack_of_toModel (u := .infinity .positive) (by decide +kernel)).trans (stored_infinity _)
  unpack_add _ _ := rfl
  unpack_mul _ _ := rfl
  unpack_div _ _ := rfl
  unpack_sqrt _ := rfl
  unpack_abs _ := rfl
  lt_iff _ _ := decide_eq_true_iff
  le_iff _ _ := decide_eq_true_iff
  beq_eq _ _ := rfl
  isFinite_eq _ := rfl

instance : LawfulBinary Float32 where
  exponentBits_le := by decide
  mantissaBits_le := by decide
  exists_unpack x := ⟨x.toModel.toBits.toBitVec, rfl⟩
  unpack_zero :=
    (unpack_of_toModel32 (u := .zero .positive) (by decide +kernel)).trans (stored_zero _)
  unpack_one := (congrArg ofUnpacked (unpack_of_toModel32 (by decide +kernel))).trans
    (ofUnpacked_stored_one (by decide))
  unpack_infinity :=
    (unpack_of_toModel32 (u := .infinity .positive) (by decide +kernel)).trans (stored_infinity _)
  unpack_add _ _ := rfl
  unpack_mul _ _ := rfl
  unpack_div _ _ := rfl
  unpack_sqrt _ := rfl
  unpack_abs _ := rfl
  lt_iff _ _ := decide_eq_true_iff
  le_iff _ _ := decide_eq_true_iff
  beq_eq _ _ := rfl
  isFinite_eq _ := rfl

/-! ### Values -/

namespace Binary

variable {α : Type} [Binary α]

/-- The value of a binary scalar. -/
noncomputable def value (x : α) : Extended := ofUnpacked (unpack x)

/-- A scalar that is a positive number. -/
def IsPositive (x : α) : Prop := ∃ a, value x = .real a ∧ 0 < a

theorem IsPositive.value_ne_zero {x : α} (hx : IsPositive x) : value x ≠ .real 0 := by
  obtain ⟨a, ha, hpos⟩ := hx
  rw [ha]
  exact fun h => hpos.ne' (real_injective h)

theorem IsPositive.value_ne_top {x : α} (hx : IsPositive x) : value x ≠ .top := by
  obtain ⟨a, ha, -⟩ := hx
  rw [ha]
  nofun

theorem IsPositive.value_ne_undefined {x : α} (hx : IsPositive x) : value x ≠ .undefined := by
  obtain ⟨a, ha, -⟩ := hx
  rw [ha]
  nofun

theorem unpack_of_top {x : α} (h : value x = .top) : unpack x = .infinity .positive := by
  rw [value] at h
  rcases hx : unpack x with (_ | _) | _ | s | ⟨s, m, e, hm⟩
  case infinity.positive => rfl
  all_goals
    rw [hx] at h
    exact nomatch h

theorem unpack_of_bot {x : α} (h : value x = .bot) : unpack x = .infinity .negative := by
  rw [value] at h
  rcases hx : unpack x with (_ | _) | _ | s | ⟨s, m, e, hm⟩
  case infinity.negative => rfl
  all_goals
    rw [hx] at h
    exact nomatch h

variable [Scalar α] [LawfulBinary α]

theorem two_le_exponentBits : 2 ≤ (format α).exponentBits :=
  le_trans (by decide) (LawfulBinary.exponentBits_le (α := α))

theorem le_mantissaBits : 23 ≤ (format α).mantissaBitsWithoutImplicit := by
  have hexponent := LawfulBinary.exponentBits_le (α := α)
  have hmantissa := LawfulBinary.mantissaBits_le (α := α)
  omega

theorem fits (x : α) : Fits (format α) (unpack x) := by
  obtain ⟨b, hb⟩ := LawfulBinary.exists_unpack x
  rw [hb]
  exact fits_unpack two_le_exponentBits b

theorem value_zero : value (0 : α) = .real 0 := congrArg ofUnpacked LawfulBinary.unpack_zero

theorem value_one : value (1 : α) = .real 1 := LawfulBinary.unpack_one

theorem value_infinity : value (Scalar.infinity : α) = .top :=
  congrArg ofUnpacked LawfulBinary.unpack_infinity

/-! #### Comparisons -/

theorem lt_iff {x y : α} : x < y ↔ value x < value y :=
  (LawfulBinary.lt_iff x y).trans (lt_eq_true_iff (fits x) (fits y))

theorem le_iff {x y : α} : x ≤ y ↔ value x ≤ value y :=
  (LawfulBinary.le_iff x y).trans (le_eq_true_iff (fits x) (fits y))

theorem beq_iff {x y : α} : (x == y) = true ↔ value x = value y ∧ value x ≠ undefined := by
  rw [LawfulBinary.beq_eq]
  exact beq_eq_true_iff (fits x) (fits y)

theorem isFinite_iff {x : α} : Scalar.isFinite x = true ↔ ∃ a, value x = .real a := by
  rw [LawfulBinary.isFinite_eq, value]
  rcases unpack x with (_ | _) | _ | s | ⟨s, m, e, hm⟩
  · exact iff_of_false nofun nofun
  · exact iff_of_false nofun nofun
  · exact iff_of_false nofun nofun
  · exact iff_of_true rfl ⟨0, rfl⟩
  · exact iff_of_true rfl ⟨_, rfl⟩

theorem pos_iff {x : α} : 0 < x ↔ (∃ a, value x = .real a ∧ 0 < a) ∨ value x = .top := by
  rw [lt_iff, value_zero]
  cases value x with
  | real a => simp
  | top => exact iff_of_true trivial (.inr rfl)
  | bot | undefined => exact iff_of_false id (by simp)

theorem isPositive_one : IsPositive (1 : α) := ⟨1, value_one, one_pos⟩

theorem IsPositive.pos {x : α} (hx : IsPositive x) : 0 < x := pos_iff.2 (.inl hx)

theorem IsPositive.nonneg {x : α} (hx : IsPositive x) : 0 ≤ x := by
  obtain ⟨a, ha, hpos⟩ := hx
  rw [le_iff, value_zero, ha, real_le_real]
  exact hpos.le

/-- Positive numbers are the scalars that are finite and positive. -/
theorem isFinite_and_pos_iff {x : α} : Scalar.isFinite x = true ∧ 0 < x ↔ IsPositive x := by
  rw [isFinite_iff, pos_iff]
  constructor
  · rintro ⟨⟨a, ha⟩, hpos | htop⟩
    · exact hpos
    · rw [ha] at htop
      exact nomatch htop
  · rintro ⟨a, ha, hpos⟩
    exact ⟨⟨a, ha⟩, .inl ⟨a, ha, hpos⟩⟩

/-- A scalar that is a number equals itself. -/
theorem beq_self_eq_true {x : α} {a : ℝ} (hx : value x = .real a) : (x == x) = true :=
  beq_iff.2 ⟨rfl, by rw [hx]; nofun⟩

theorem value_greater {x y : α} {a b : ℝ} (hx : value x = .real a) (hy : value y = .real b) :
    value (Scalar.greater x y) = .real (max a b) := by
  rw [Scalar.greater]
  split
  · rename_i h
    rw [beq_self_eq_true hy, or_iff_left nofun, lt_iff, hx, hy, real_lt_real] at h
    rw [hx, max_eq_left h.le]
  · rename_i h
    rw [not_or, lt_iff, hx, hy, real_lt_real, not_lt] at h
    rw [hy, max_eq_right h.1]

theorem value_lesser {x y : α} {a b : ℝ} (hx : value x = .real a) (hy : value y = .real b) :
    value (Scalar.lesser x y) = .real (min a b) := by
  rw [Scalar.lesser]
  split
  · rename_i h
    rw [beq_self_eq_true hy, or_iff_left nofun, lt_iff, hx, hy, real_lt_real] at h
    rw [hx, min_eq_left h.le]
  · rename_i h
    rw [not_or, lt_iff, hx, hy, real_lt_real, not_lt] at h
    rw [hy, min_eq_right h.1]

/-! #### Real values -/

/-- What a scalar with a real value is read as. -/
theorem exists_unpack_eq {x : α} {a : ℝ} (h : value x = .real a) :
    ∃ (s : Sign) (m : ℕ) (e : ℤ), Canonical (format α) m e ∧ unpack x = signed s m e ∧
      a = unit s * (m * 2 ^ e) ∧ (m : ℝ) * 2 ^ e < overflow (format α) := by
  have hfits := fits x
  rw [value] at h
  rcases hx : unpack x with (_ | _) | _ | s | ⟨s, m, e, hm⟩
  · rw [hx] at h
    exact nomatch h
  · rw [hx] at h
    exact nomatch h
  · rw [hx] at h
    exact nomatch h
  · rw [hx] at h
    refine ⟨s, 0, _, canonical_zero _, rfl, ?_, ?_⟩
    · rw [← Extended.real_injective h, Nat.cast_zero, zero_mul, mul_zero]
    · rw [Nat.cast_zero, zero_mul]
      exact overflow_pos _
  · rw [hx] at h hfits
    rw [ofUnpacked_finite] at h
    refine ⟨s, m, e, hfits.1, (signed_of_pos s e hm).symm, (Extended.real_injective h).symm, ?_⟩
    exact (hfits.1.value_lt_overflow_iff two_le_exponentBits).2 hfits.2

theorem abs_unit (s : Sign) : |unit s| = 1 := by
  cases s with
  | negative => exact (abs_neg 1).trans abs_one
  | positive => exact abs_one

theorem abs_unit_mul (s : Sign) (m : ℕ) (e : ℤ) : |unit s * ((m : ℝ) * 2 ^ e)| = m * 2 ^ e := by
  rw [abs_mul, abs_unit, one_mul, abs_of_nonneg (Canonical.value_nonneg m e)]

/-- The format represents a real value, and it is not too large. -/
theorem representable {x : α} {a : ℝ} (h : value x = .real a) :
    Representable (format α) a ∧ |a| < overflow (format α) := by
  obtain ⟨s, m, e, hcanonical, -, rfl, hlt⟩ := exists_unpack_eq h
  have habs := abs_unit_mul s m e
  exact ⟨⟨m, e, hcanonical, habs⟩, habs.trans_lt hlt⟩

/-- Only zero can be read in two ways. -/
theorem unpack_inj {x y : α} {a : ℝ} (hx : value x = .real a) (hy : value y = .real a)
    (ha : a ≠ 0) : unpack x = unpack y := by
  obtain ⟨s, m, e, hm, hux, hax, -⟩ := exists_unpack_eq hx
  obtain ⟨s', m', e', hm', huy, hay, -⟩ := exists_unpack_eq hy
  have heq : unit s * ((m : ℝ) * 2 ^ e) = unit s' * (m' * 2 ^ e') := hax.symm.trans hay
  have habs : (m : ℝ) * 2 ^ e = m' * 2 ^ e' := by
    rw [← abs_unit_mul s m e, heq, abs_unit_mul]
  obtain ⟨rfl, rfl⟩ := hm.value_inj hm' habs
  have hne : (m : ℝ) * 2 ^ e ≠ 0 := fun h0 => ha (by rw [hax, h0, mul_zero])
  have hsign := mul_right_cancel₀ hne heq
  have hs : s = s' := by
    cases s with
    | negative =>
      cases s' with
      | negative => rfl
      | positive => norm_num [unit] at hsign
    | positive =>
      cases s' with
      | negative => norm_num [unit] at hsign
      | positive => rfl
  rw [hux, huy, hs]

/-- A scalar with a value other than zero is read as a finite number. -/
theorem exists_unpack_finite {x : α} {a : ℝ} (h : value x = .real a) (ha : a ≠ 0) :
    ∃ (s : Sign) (m : ℕ) (e : ℤ) (hm : 0 < m), Canonical (format α) m e ∧
      unpack x = .finite s m e hm ∧ a = unit s * (m * 2 ^ e) := by
  obtain ⟨s, m, e, hcanonical, hux, hax, -⟩ := exists_unpack_eq h
  have hm : 0 < m := by
    refine Nat.pos_of_ne_zero fun h0 => ha ?_
    rw [hax, h0, Nat.cast_zero, zero_mul, mul_zero]
  exact ⟨s, m, e, hm, hcanonical, hux.trans (signed_of_pos s e hm), hax⟩

/-- Only zeros have the value zero. -/
theorem exists_unpack_zero {x : α} (h : value x = .real 0) : ∃ s, unpack x = .zero s := by
  obtain ⟨s, m, e, -, hux, hax, -⟩ := exists_unpack_eq h
  have hm : m = 0 := by
    have hzero := (mul_eq_zero.1 hax.symm).resolve_left (unit_ne_zero s)
    exact_mod_cast (mul_eq_zero.1 hzero).resolve_right (by positivity)
  exact ⟨s, hux.trans (dif_pos hm)⟩

/-! #### Operations -/

theorem value_abs (x : α) : value (Scalar.abs x) = Extended.abs (value x) := by
  have hfits := fits x
  rw [value, value, LawfulBinary.unpack_abs]
  rcases hx : unpack x with (_ | _) | _ | s | ⟨s, m, e, hm⟩
  · exact congrArg ofUnpacked (stored_infinity .positive)
  · exact congrArg ofUnpacked (stored_infinity .positive)
  · exact congrArg ofUnpacked stored_notANumber
  · rw [UnpackedFloat.abs, stored_zero]
    exact congrArg Extended.real abs_zero.symm
  · rw [hx] at hfits
    have hstored : stored (format α) (.finite .positive m e hm) = .finite .positive m e hm :=
      stored_of_fits (u := .finite .positive m e hm) hfits
    rw [UnpackedFloat.abs, hstored, ofUnpacked_finite, ofUnpacked_finite, Extended.abs,
      abs_unit_mul, unit, one_mul]

/-- A quotient of zero is zero or no number. -/
theorem value_zero_div {x : α} (hx : value x = .real 0) (y : α) :
    value (x / y) = .real 0 ∨ value (x / y) = .undefined := by
  obtain ⟨s, hux⟩ := exists_unpack_zero hx
  rw [value, LawfulBinary.unpack_div, hux]
  rcases unpack y with s' | _ | s' | ⟨s', m, e, hm⟩
  · exact .inl (congrArg ofUnpacked (stored_zero (s / s')))
  · exact .inr (congrArg ofUnpacked stored_notANumber)
  · exact .inr (congrArg ofUnpacked stored_notANumber)
  · exact .inl (congrArg ofUnpacked (stored_zero (s / s')))

/-- A product of real values is rounded. -/
theorem rounds_mul {x y : α} {a b : ℝ} (hx : value x = .real a) (hy : value y = .real b) :
    Rounds (format α) (a * b) (value (x * y)) := by
  rw [value, LawfulBinary.unpack_mul]
  rcases eq_or_ne a 0 with rfl | ha
  · obtain ⟨s, hux⟩ := exists_unpack_zero hx
    have hzero : ∃ s', UnpackedFloat.mul (format α) (unpack x) (unpack y) = .zero s' := by
      rw [hux]
      rcases eq_or_ne b 0 with rfl | hb
      · obtain ⟨s', huy⟩ := exists_unpack_zero hy
        exact ⟨_, by rw [huy]; rfl⟩
      · obtain ⟨s', m, e, hm, -, huy, -⟩ := exists_unpack_finite hy hb
        exact ⟨_, by rw [huy]; rfl⟩
    obtain ⟨s', hmul⟩ := hzero
    rw [hmul, stored_zero, zero_mul]
    exact rounds_zero _
  · obtain ⟨s, m, e, hm, hcanonical, hux, rfl⟩ := exists_unpack_finite hx ha
    rcases eq_or_ne b 0 with rfl | hb
    · obtain ⟨s', huy⟩ := exists_unpack_zero hy
      have hmul : UnpackedFloat.mul (format α) (unpack x) (unpack y) = .zero (s * s') := by
        rw [hux, huy]
        rfl
      rw [hmul, stored_zero, mul_zero]
      exact rounds_zero _
    · obtain ⟨s', m', e', hm', hcanonical', huy, rfl⟩ := exists_unpack_finite hy hb
      obtain ⟨M, E, h, hnearest, hmul⟩ := mul_nearest hcanonical hcanonical' hm hm' s s'
      rw [hux, huy, hmul, mul_mul_mul_comm, ← unit_mul]
      exact rounds_stored two_le_exponentBits h hnearest _

theorem exists_unpack_pos {x : α} {a : ℝ} (h : value x = .real a) (ha : 0 < a) :
    ∃ (m : ℕ) (e : ℤ) (hm : 0 < m), unpack x = .finite .positive m e hm ∧ a = m * 2 ^ e := by
  obtain ⟨s, m, e, hm, -, hux, rfl⟩ := exists_unpack_finite h ha.ne'
  have hpos : (0 : ℝ) < m * 2 ^ e := by positivity
  cases s with
  | negative => exact absurd ha (by rw [unit]; linarith)
  | positive => exact ⟨m, e, hm, hux, by rw [unit, one_mul]⟩

/-- A positive number leaves an infinity as it is. -/
theorem unpack_mul_infinity {x y : α} {a : ℝ} {s : Sign} (hx : value x = .real a) (ha : 0 < a)
    (hy : unpack y = .infinity s) :
    unpack (x * y) = .infinity s ∧ unpack (y * x) = .infinity s := by
  obtain ⟨m, e, hm, hux, -⟩ := exists_unpack_pos hx ha
  rw [LawfulBinary.unpack_mul, LawfulBinary.unpack_mul, hux, hy]
  simp only [UnpackedFloat.mul, stored_infinity]
  cases s with
  | negative | positive => exact ⟨rfl, rfl⟩

theorem value_mul_top {x y : α} {a : ℝ} (hx : value x = .real a) (ha : 0 < a)
    (hy : value y = .top) : value (x * y) = .top ∧ value (y * x) = .top := by
  have h := unpack_mul_infinity hx ha (unpack_of_top hy)
  exact ⟨congrArg ofUnpacked h.1, congrArg ofUnpacked h.2⟩

theorem value_mul_bot {x y : α} {a : ℝ} (hx : value x = .real a) (ha : 0 < a)
    (hy : value y = .bot) : value (x * y) = .bot :=
  congrArg ofUnpacked (unpack_mul_infinity hx ha (unpack_of_bot hy)).1

/-- One leaves a real value as it is. -/
theorem value_one_mul {x : α} {a : ℝ} (hx : value x = .real a) : value (1 * x) = .real a := by
  have hrounds := rounds_mul value_one hx
  rw [one_mul] at hrounds
  exact hrounds.eq_real (representable hx).1 (representable hx).2

/-- Products of equal values are equal. -/
theorem value_mul_congr {d x y : α} {a b : ℝ} (hd : value d = .real a) (hx : value x = .real b)
    (hy : value y = .real b) : value (d * x) = value (d * y) := by
  rcases eq_or_ne b 0 with rfl | hb
  · have hrepresentable := representable_zero (format α)
    have hlt : |(0 : ℝ)| < overflow (format α) := by simpa using overflow_pos _
    have hmul {z : α} (hz : value z = .real 0) : value (d * z) = .real 0 := by
      have hrounds := rounds_mul hd hz
      rw [mul_zero] at hrounds
      exact hrounds.eq_real hrepresentable hlt
    rw [hmul hx, hmul hy]
  · rw [value, value, LawfulBinary.unpack_mul, LawfulBinary.unpack_mul, unpack_inj hx hy hb]

/-- Multiplied by a positive number, an infinity stays where it is, and a real number is
    rounded. -/
theorem value_mul_cases {d z : α} {a : ℝ} (hd : value d = .real a) (ha : 0 < a)
    (hz : value z ≠ .undefined) : value z = .bot ∧ value (d * z) = .bot ∨
      value z = .top ∧ value (d * z) = .top ∨
      ∃ b, value z = .real b ∧ Rounds (format α) (a * b) (value (d * z)) := by
  cases h : value z with
  | real b => exact .inr (.inr ⟨b, rfl, rounds_mul hd h⟩)
  | top => exact .inr (.inl ⟨rfl, (value_mul_top hd ha h).1⟩)
  | bot => exact .inl ⟨rfl, value_mul_bot hd ha h⟩
  | undefined => exact absurd h hz

/-- Multiplication by a positive number keeps the order. -/
theorem mul_le_mul_of_pos {d x y : α} {a : ℝ} (hd : value d = .real a) (ha : 0 < a) (h : x ≤ y) :
    d * x ≤ d * y := by
  rw [le_iff] at h ⊢
  have hx : value x ≠ .undefined := fun h0 => not_undefined_le _ (h0 ▸ h)
  have hy : value y ≠ .undefined := fun h0 => not_le_undefined _ (h0 ▸ h)
  rcases value_mul_cases hd ha hx with ⟨-, hdx⟩ | ⟨hx', hdx⟩ | ⟨b, hx', hdx⟩
  · rw [hdx]
    rcases value_mul_cases hd ha hy with ⟨-, hdy⟩ | ⟨-, hdy⟩ | ⟨c, -, hdy⟩
    · exact .inr ⟨hdy.symm, nofun⟩
    · rw [hdy]
      exact .inl trivial
    · exact hdy.bot_le
  · rw [hx'] at h
    rcases value_mul_cases hd ha hy with ⟨hy', -⟩ | ⟨-, hdy⟩ | ⟨c, hy', -⟩
    · rw [hy'] at h
      exact absurd h fun h => h.elim id fun h => nomatch h.1
    · rw [hdx, hdy]
      exact .inr ⟨rfl, nofun⟩
    · rw [hy'] at h
      exact absurd h (not_top_le_real c)
  · rw [hx'] at h
    rcases value_mul_cases hd ha hy with ⟨hy', -⟩ | ⟨-, hdy⟩ | ⟨c, hy', hdy⟩
    · rw [hy'] at h
      exact absurd h (not_real_le_bot b)
    · rw [hdy]
      exact hdx.le_top
    · rw [hy', real_le_real] at h
      rcases h.lt_or_eq with hlt | rfl
      · exact hdx.mono hdy (mul_lt_mul_of_pos_left hlt ha)
      · rw [value_mul_congr hd hx' hy']
        refine .inr ⟨rfl, fun h0 => ?_⟩
        rw [h0] at hdy
        exact nomatch hdy

/-- A zero leaves a summand as it is, apart from the sign of another zero. -/
theorem value_add_zero {x y : α} {s : Sign} (hy : unpack y = .zero s) :
    value (x + y) = value x := by
  have hfits := fits x
  rw [value, value, LawfulBinary.unpack_add, hy]
  rcases hx : unpack x with s' | _ | s' | ⟨s', m, e, hm⟩
  · exact congrArg ofUnpacked (stored_infinity s')
  · exact congrArg ofUnpacked stored_notANumber
  · -- The sum of two zeros may have the other sign.
    rw [UnpackedFloat.add]
    split
    · rw [stored_zero]
    · rw [stored_zero]
      rfl
  · rw [hx] at hfits
    exact congrArg ofUnpacked (stored_of_fits hfits)

/-- A quotient of real values is rounded, if the divisor is not zero. -/
theorem rounds_div {x y : α} {a b : ℝ} (hx : value x = .real a) (hy : value y = .real b)
    (hb : b ≠ 0) : Rounds (format α) (a / b) (value (x / y)) := by
  obtain ⟨s', m', e', hm', -, huy, rfl⟩ := exists_unpack_finite hy hb
  rw [value, LawfulBinary.unpack_div, huy]
  rcases eq_or_ne a 0 with rfl | ha
  · obtain ⟨s, hux⟩ := exists_unpack_zero hx
    have hdiv : UnpackedFloat.div (format α) (unpack x) (.finite s' m' e' hm') =
        .zero (s / s') := by
      rw [hux]
      rfl
    rw [hdiv, stored_zero, zero_div]
    exact rounds_zero _
  · obtain ⟨s, m, e, hm, -, hux, rfl⟩ := exists_unpack_finite hx ha
    obtain ⟨M, E, h, hnearest, hdiv⟩ := div_nearest (F := format α) e e' hm hm' s s'
    rw [hux, hdiv, mul_div_mul_comm, ← unit_div]
    exact rounds_stored two_le_exponentBits h hnearest _

/-- A square root of a real value is rounded. -/
theorem rounds_sqrt {x : α} {a : ℝ} (hx : value x = .real a) (ha : 0 < a) :
    Rounds (format α) √a (value (Scalar.sqrt x)) := by
  obtain ⟨m, e, hm, hux, rfl⟩ := exists_unpack_pos hx ha
  obtain ⟨M, E, h, hnearest, hsqrt⟩ := sqrt_nearest (F := format α) (e := e) hm
  have hrounds := rounds_stored two_le_exponentBits h hnearest .positive
  rw [value, LawfulBinary.unpack_sqrt, hux, hsqrt]
  rwa [unit, one_mul] at hrounds

/-- Only a positive number has a positive root that is finite. -/
theorem exists_of_sqrt_pos {x : α} {r : ℝ} (h : value (Scalar.sqrt x) = .real r) (hr : 0 < r) :
    ∃ a, value x = .real a ∧ 0 < a ∧ Nearest (format α) √a r := by
  rcases hx : unpack x with (_ | _) | _ | s | ⟨_ | _, m, e, hm⟩
  case finite.positive =>
    have hpos : (0 : ℝ) < m * 2 ^ e := by positivity
    have hvalue : value x = .real (m * 2 ^ e) := by
      rw [value, hx, ofUnpacked_finite, unit, one_mul]
    refine ⟨_, hvalue, hpos, ?_⟩
    have hrounds := rounds_sqrt hvalue hpos
    rw [h] at hrounds
    cases hrounds with
    | real hnearest _ => exact hnearest
  case zero =>
    rw [value, LawfulBinary.unpack_sqrt, hx, UnpackedFloat.sqrt, stored_zero] at h
    exact absurd (Extended.real_injective h) hr.ne
  all_goals
    rw [value, LawfulBinary.unpack_sqrt, hx, UnpackedFloat.sqrt] at h
    simp only [stored_infinity, stored_notANumber] at h
    cases h

end Binary

end HybridGradient
