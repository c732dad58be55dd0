import HybridGradient.Proofs.Extended
import Mathlib

/-!
# Rounding to a binary format

A format has one canonical form, with a significand and an exponent, for each magnitude that
it represents, as long as the exponent is not bounded from above. Rounding shifts a significand
to the canonical exponent, keeping of the digits that are lost what decides between two
neighbours. What comes out is a number of the format than which no other one is nearer.

* `Rounding.Canonical`: the canonical forms, which are ordered as their values are;
* `Rounding.Nearest`: a number of a format nearest to a real number;
* `Rounding.Represents`: what an extended significand says of a real number;
* `Rounding.roundWithAccuracy_nearest`: rounding finds a nearest number.
-/

namespace HybridGradient

open Float.Model Float.Model.UnpackedFloat

namespace Rounding

variable {F : Format}

/-! ### Canonical forms -/

/-- The significand fills all digits of the format, unless the exponent is the least one. -/
structure Canonical (F : Format) (m : ℕ) (e : ℤ) : Prop where
  lt : m < 2 ^ F.mantissaBits
  minExponent_le : F.minExponent ≤ e
  full : e = F.minExponent ∨ 2 ^ F.mantissaBitsWithoutImplicit ≤ m

theorem two_pow_mantissaBits (F : Format) :
    2 ^ F.mantissaBits = 2 * 2 ^ F.mantissaBitsWithoutImplicit := by
  rw [Format.mantissaBits, pow_add, pow_one]

theorem canonical_zero (F : Format) : Canonical F 0 F.minExponent :=
  ⟨Nat.two_pow_pos _, le_rfl, .inl rfl⟩

theorem canonical_one (F : Format) : Canonical F 1 F.minExponent :=
  ⟨Nat.one_lt_two_pow (by simp [Format.mantissaBits]), le_rfl, .inl rfl⟩

namespace Canonical

variable {m m' : ℕ} {e e' : ℤ}

theorem value_nonneg (m : ℕ) (e : ℤ) : (0 : ℝ) ≤ m * 2 ^ e := by positivity

/-- A canonical number with a greater exponent is greater by more than a unit. -/
theorem succ_le_of_exponent_lt (h : Canonical F m e) (h' : Canonical F m' e') (he : e < e') :
    ((m : ℝ) + 1) * 2 ^ e ≤ m' * 2 ^ e' := by
  have hfull : 2 ^ F.mantissaBitsWithoutImplicit ≤ m' :=
    h'.full.resolve_left (ne_of_gt (h.minExponent_le.trans_lt he))
  have hm : m + 1 ≤ m' * 2 := by
    have hlt := h.lt
    rw [two_pow_mantissaBits] at hlt
    omega
  calc ((m : ℝ) + 1) * 2 ^ e ≤ m' * 2 * 2 ^ e := by
        refine mul_le_mul_of_nonneg_right ?_ (by positivity)
        exact_mod_cast hm
    _ = m' * 2 ^ (e + 1) := by rw [zpow_add_one₀ two_ne_zero]; ring
    _ ≤ m' * 2 ^ e' := mul_le_mul_of_nonneg_left
        (zpow_le_zpow_right₀ one_le_two (Int.add_one_le_of_lt he)) (Nat.cast_nonneg _)

/-- A canonical number is less than another one if it comes before it in the order by
    exponents and then significands. -/
theorem value_lt_iff (h : Canonical F m e) (h' : Canonical F m' e') :
    (m : ℝ) * 2 ^ e < m' * 2 ^ e' ↔ e < e' ∨ e = e' ∧ m < m' := by
  have hlt {m m' : ℕ} {e e' : ℤ} (h : Canonical F m e) (h' : Canonical F m' e') (he : e < e') :
      (m : ℝ) * 2 ^ e < m' * 2 ^ e' :=
    (mul_lt_mul_of_pos_right (lt_add_one _) (by positivity)).trans_le
      (succ_le_of_exponent_lt h h' he)
  rcases lt_trichotomy e e' with he | rfl | he
  · exact iff_of_true (hlt h h' he) (.inl he)
  · rw [mul_lt_mul_iff_left₀ (by positivity), Nat.cast_lt]
    exact ⟨fun hm => .inr ⟨rfl, hm⟩, fun hor => (hor.resolve_left (lt_irrefl e)).2⟩
  · refine iff_of_false (hlt h' h he).not_gt ?_
    rintro (he' | ⟨rfl, -⟩)
    · exact he.not_gt he'
    · exact lt_irrefl _ he

theorem value_inj (h : Canonical F m e) (h' : Canonical F m' e')
    (heq : (m : ℝ) * 2 ^ e = m' * 2 ^ e') : m = m' ∧ e = e' := by
  have hle := mt (value_lt_iff h h').2 heq.not_lt
  have hge := mt (value_lt_iff h' h).2 heq.not_gt
  omega

/-- Between a canonical number and the next multiple of its unit there is no other one. -/
theorem le_or_succ_le (h : Canonical F m e) (h' : Canonical F m' e') :
    (m' : ℝ) * 2 ^ e' ≤ m * 2 ^ e ∨ ((m : ℝ) + 1) * 2 ^ e ≤ m' * 2 ^ e' := by
  rw [or_iff_not_imp_left, not_le, value_lt_iff h h']
  rintro (he | ⟨rfl, hm⟩)
  · exact succ_le_of_exponent_lt h h' he
  · refine mul_le_mul_of_nonneg_right ?_ (by positivity)
    exact_mod_cast hm

/-- The position of the first digit of a canonical number determines its exponent. -/
theorem targetExponent (h : Canonical F m e) :
    F.targetExponent (totalExponent m e) = e := by
  have hlt := h.lt
  have hmin := h.minExponent_le
  rw [Format.targetExponent, totalExponent]
  rcases Nat.eq_zero_or_pos m with rfl | hm
  · obtain rfl := h.full.resolve_right (not_le.2 (Nat.two_pow_pos _))
    rw [Nat.log2_zero, Format.mantissaBits]
    omega
  · have hlog : m.log2 < F.mantissaBits := (Nat.log2_lt hm.ne').2 hlt
    rcases h.full with rfl | hfull
    · omega
    · have hlog' : F.mantissaBitsWithoutImplicit ≤ m.log2 := (Nat.le_log2 hm.ne').2 hfull
      rw [Format.mantissaBits] at hlog ⊢
      omega

end Canonical

/-! ### Nearest numbers -/

/-- A format represents a number up to its sign, if the exponent is not bounded from above. -/
def Representable (F : Format) (x : ℝ) : Prop :=
  ∃ (m : ℕ) (e : ℤ), Canonical F m e ∧ |x| = m * 2 ^ e

theorem Representable.neg {x : ℝ} (h : Representable F x) : Representable F (-x) := by
  rwa [Representable, abs_neg]

theorem Canonical.representable {m : ℕ} {e : ℤ} (h : Canonical F m e) :
    Representable F (m * 2 ^ e) :=
  ⟨m, e, h, abs_of_nonneg (Canonical.value_nonneg m e)⟩

/-- No number of the format lies between a canonical number and the next one. -/
theorem Representable.le_or_succ_le {s : ℝ} (hs : Representable F s) {m : ℕ} {e : ℤ}
    (h : Canonical F m e) : s ≤ m * 2 ^ e ∨ ((m : ℝ) + 1) * 2 ^ e ≤ s := by
  rcases le_total s 0 with hneg | hpos
  · exact .inl (hneg.trans (Canonical.value_nonneg m e))
  · obtain ⟨m', e', h', habs⟩ := hs
    rw [abs_of_nonneg hpos] at habs
    rw [habs]
    exact h.le_or_succ_le h'

theorem representable_zero (F : Format) : Representable F 0 := by
  simpa using (canonical_zero F).representable

/-- Numbers with few digits are in the format. -/
theorem representable_of_lt {m : ℕ} {e : ℤ} (hm : m < 2 ^ F.mantissaBits)
    (he : F.minExponent ≤ e) : Representable F (m * 2 ^ e) := by
  obtain ⟨k, rfl⟩ := Int.le.dest he
  -- A significand with room to the left is moved there.
  induction k generalizing m with
  | zero => exact (Canonical.mk hm he (.inl (add_zero _))).representable
  | succ k ih =>
    by_cases hfull : 2 ^ F.mantissaBitsWithoutImplicit ≤ m
    · exact (Canonical.mk hm he (.inr hfull)).representable
    · have hdouble : m * 2 < 2 ^ F.mantissaBits := by
        rw [two_pow_mantissaBits]
        omega
      have hvalue : (m : ℝ) * 2 ^ (F.minExponent + (k + 1 : ℕ)) =
          (m * 2 : ℕ) * 2 ^ (F.minExponent + k) := by
        rw [Nat.cast_succ, ← add_assoc, zpow_add_one₀ two_ne_zero, Nat.cast_mul, Nat.cast_two]
        ring
      rw [hvalue]
      exact ih hdouble (by omega)

theorem representable_two_pow {e : ℤ} (he : F.minExponent ≤ e) : Representable F (2 ^ e) := by
  simpa using representable_of_lt (canonical_one F).lt he

/-- A number of a format than which no other one is nearer to a real number. -/
structure Nearest (F : Format) (x r : ℝ) : Prop where
  representable : Representable F r
  abs_sub_le : ∀ s, Representable F s → |x - r| ≤ |x - s|

namespace Nearest

variable {x y r s : ℝ}

theorem neg (h : Nearest F x r) : Nearest F (-x) (-r) := by
  refine ⟨h.representable.neg, fun s hs => ?_⟩
  have hle := h.abs_sub_le (-s) hs.neg
  rwa [← neg_sub', abs_neg, ← abs_neg (-x - s), neg_sub, sub_neg_eq_add, add_comm,
    ← sub_neg_eq_add]

theorem le (h : Nearest F x r) (hs : Representable F s) (hle : s ≤ x) : s ≤ r := by
  by_contra! hlt
  have habs := h.abs_sub_le s hs
  rw [abs_of_nonneg (by linarith), abs_of_nonneg (by linarith)] at habs
  linarith

theorem ge (h : Nearest F x r) (hs : Representable F s) (hle : x ≤ s) : r ≤ s := by
  have hneg := h.neg.le hs.neg (neg_le_neg hle)
  exact neg_le_neg_iff.1 hneg

/-- A number of the format is not rounded. -/
theorem eq_self (h : Nearest F x r) (hx : Representable F x) : r = x :=
  le_antisymm (h.ge hx le_rfl) (h.le hx le_rfl)

theorem nonneg (h : Nearest F x r) (hx : 0 ≤ x) : 0 ≤ r := h.le (representable_zero F) hx

/-- Rounding is monotone. -/
theorem mono (hx : Nearest F x r) (hy : Nearest F y s) (hlt : x < y) : r ≤ s := by
  by_contra! hsr
  have h₁ := hx.abs_sub_le s hy.representable
  have h₂ := hy.abs_sub_le r hx.representable
  rw [← sq_le_sq] at h₁ h₂
  nlinarith

/-- Below the middle to the next number, a number is rounded down. -/
theorem le_of_lt_middle (h : Nearest F x r) {m : ℕ} {e : ℤ} (hm : Canonical F m e)
    (hx : x < (m + 1 / 2) * 2 ^ e) : r ≤ m * 2 ^ e := by
  have hu : (0 : ℝ) < 2 ^ e := by positivity
  refine (h.representable.le_or_succ_le hm).resolve_right fun hge => ?_
  have habs := h.abs_sub_le _ hm.representable
  rw [add_mul] at hx hge
  rw [abs_of_nonpos (by linarith)] at habs
  rcases le_total ((m : ℝ) * 2 ^ e) x with hle | hle
  · rw [abs_of_nonneg (sub_nonneg.2 hle)] at habs
    linarith
  · rw [abs_of_nonpos (sub_nonpos.2 hle)] at habs
    linarith

/-- What is more than half the least number of the format is not rounded to zero. -/
theorem pos (h : Nearest F x r) (hx : (2 : ℝ) ^ (F.minExponent - 1) < x) : 0 < r := by
  by_contra! hr
  have hone := (canonical_one F).representable
  have habs := h.abs_sub_le _ hone
  have htwo : (2 : ℝ) ^ F.minExponent = 2 * 2 ^ (F.minExponent - 1) := by
    rw [← zpow_one_add₀ two_ne_zero, add_sub_cancel]
  have hpos : (0 : ℝ) < 2 ^ (F.minExponent - 1) := by positivity
  rw [Nat.cast_one, one_mul, htwo, abs_of_nonneg (by linarith)] at habs
  rcases abs_cases (x - 2 * 2 ^ (F.minExponent - 1)) with ⟨heq, -⟩ | ⟨heq, -⟩
  · linarith
  · linarith

end Nearest

/-! ### Extended significands -/

/-- The digits that an extended significand keeps say between which two multiples of one half
    a number is. -/
def Represents (em : ExtendedMantissa) (y : ℝ) : Prop :=
  ∃ s : ℝ, 0 ≤ s ∧ s < 1 / 2 ∧ (s = 0 ↔ em.stickyBit = false) ∧
    y = em.mantissa + (if em.roundBit then 1 / 2 else 0) + s

namespace Represents

variable {em : ExtendedMantissa} {y : ℝ}

theorem exact (m : ℕ) : Represents (.ofMantissaAndAccuracy m .exact) m :=
  ⟨0, le_rfl, one_half_pos, iff_of_true rfl rfl, by simp [ExtendedMantissa.ofMantissaAndAccuracy]⟩

theorem of_lt {m : ℕ} (h : m < y) (h' : y < m + 1 / 2) :
    Represents (.ofMantissaAndAccuracy m (.inexact .lt)) y :=
  ⟨y - m, by linarith, by linarith, iff_of_false (by linarith) nofun,
    by simp [ExtendedMantissa.ofMantissaAndAccuracy]⟩

theorem of_eq {m : ℕ} (h : y = m + 1 / 2) :
    Represents (.ofMantissaAndAccuracy m (.inexact .eq)) y :=
  ⟨0, le_rfl, one_half_pos, iff_of_true rfl rfl, by
    simpa [ExtendedMantissa.ofMantissaAndAccuracy] using h⟩

theorem of_gt {m : ℕ} (h : m + 1 / 2 < y) (h' : y < m + 1) :
    Represents (.ofMantissaAndAccuracy m (.inexact .gt)) y :=
  ⟨y - (m + 1 / 2), by linarith, by linarith, iff_of_false (by linarith) nofun,
    by simp [ExtendedMantissa.ofMantissaAndAccuracy]⟩

/-- Halving a number moves a digit of its extended significand out. -/
theorem shiftRightOne (h : Represents em y) : Represents em.shiftRightOne (y / 2) := by
  obtain ⟨s, hs, hlt, hsticky, rfl⟩ := h
  have hdigit : (em.mantissa : ℝ) = 2 * (em.mantissa / 2 : ℕ) + (em.mantissa % 2 : ℕ) := by
    exact_mod_cast (Nat.div_add_mod em.mantissa 2).symm
  refine ⟨((if em.roundBit then 1 / 2 else 0) + s) / 2, ?_, ?_, ?_, ?_⟩
  · split <;> linarith
  · split <;> linarith
  · rw [ExtendedMantissa.shiftRightOne]
    cases hround : em.roundBit with
    | true => exact iff_of_false (by rw [if_pos rfl]; linarith) (by simp)
    | false => simp [hsticky]
  · rw [ExtendedMantissa.shiftRightOne, hdigit]
    rcases Nat.mod_two_eq_zero_or_one em.mantissa with hmod | hmod <;> simp [hmod] <;> ring

theorem shiftRight (h : Represents em y) (k : ℕ) : Represents (em >>> k) (y / 2 ^ k) := by
  induction k with
  | zero => rwa [pow_zero, div_one]
  | succ k ih =>
    rw [pow_succ, ← div_div]
    exact ih.shiftRightOne

theorem mantissa_le (h : Represents em y) : (em.mantissa : ℝ) ≤ y := by
  obtain ⟨s, hs, -, -, rfl⟩ := h
  split <;> linarith

theorem lt_succ (h : Represents em y) : y < em.mantissa + 1 := by
  obtain ⟨s, -, hlt, -, rfl⟩ := h
  split <;> linarith

/-- The rounded significand is one of the two next to the number, and no more than one half
    away from it. -/
theorem rounded (h : Represents em y) :
    (em.roundedMantissa = em.mantissa ∧ y - em.mantissa ≤ 1 / 2) ∨
      (em.roundedMantissa = em.mantissa + 1 ∧ em.mantissa + 1 - y ≤ 1 / 2) := by
  obtain ⟨s, hs, hlt, hsticky, rfl⟩ := h
  obtain ⟨m, round, sticky⟩ := em
  cases round with
  | false =>
    refine .inl ⟨?_, by simp; linarith⟩
    cases sticky <;> rfl
  | true =>
    cases sticky with
    | true => exact .inr ⟨rfl, by simp; linarith⟩
    | false =>
      -- A tie is broken in favour of an even significand.
      obtain rfl := hsticky.2 rfl
      rcases Nat.mod_two_eq_zero_or_one m with hmod | hmod
      · exact .inl ⟨by simp [ExtendedMantissa.roundedMantissa, ExtendedMantissa.accuracy,
          Accuracy.roundToNearestEven, hmod], by simp⟩
      · exact .inr ⟨by simp [ExtendedMantissa.roundedMantissa, ExtendedMantissa.accuracy,
          Accuracy.roundToNearestEven, hmod], by simp; norm_num⟩

end Represents

/-! ### Shifts -/

theorem totalExponent_of_bounds {m k : ℕ} (e : ℤ) (hle : 2 ^ k ≤ m) (hlt : m < 2 ^ (k + 1)) :
    totalExponent m e = k + 1 + e := by
  have hm : m ≠ 0 := by
    rintro rfl
    exact absurd hle (not_le.2 (Nat.two_pow_pos k))
  rw [totalExponent, (Nat.log2_eq_iff hm).2 ⟨hle, hlt⟩]

/-- Digits moved from the significand into the exponent leave the first one where it is. -/
theorem totalExponent_shift {m : ℕ} (hm : 0 < m) (e : ℤ) (k : ℕ) :
    totalExponent (m * 2 ^ k) e = totalExponent m (e + k) := by
  have h := Nat.log2_self_le hm.ne'
  have h' := (Nat.log2_lt hm.ne' (k := m.log2 + 1)).1 (Nat.lt_succ_self _)
  rw [totalExponent_of_bounds (k := m.log2 + k) e, totalExponent]
  · push_cast
    ring
  · rw [pow_add]
    exact Nat.mul_le_mul_right _ h
  · rw [add_right_comm, pow_add]
    exact Nat.mul_lt_mul_of_pos_right h' (Nat.two_pow_pos k)

theorem shiftRight_succ (em : ExtendedMantissa) (k : ℕ) :
    em >>> (k + 1) = (em >>> k).shiftRightOne := rfl

theorem mantissa_shiftRight (em : ExtendedMantissa) (k : ℕ) :
    (em >>> k).mantissa = em.mantissa / 2 ^ k := by
  induction k with
  | zero => exact (Nat.div_one _).symm
  | succ k ih =>
    rw [shiftRight_succ, ExtendedMantissa.shiftRightOne, ih, Nat.div_div_eq_div_mul, ← pow_succ]

theorem mantissa_ofMantissaAndAccuracy (m : ℕ) (acc : Accuracy) :
    (ExtendedMantissa.ofMantissaAndAccuracy m acc).mantissa = m := by
  rcases acc with _ | (_ | _ | _) <;> rfl

theorem shiftToTargetExponent_eq {m : ℕ} {e : ℤ} {k : ℕ} (acc : Accuracy)
    (h : F.targetExponent (totalExponent m e) = e + k) :
    shiftToTargetExponent F m e acc =
      (ExtendedMantissa.ofMantissaAndAccuracy m acc >>> k, e + k) := by
  rw [shiftToTargetExponent, h, shiftToExponent, add_sub_cancel_left, Int.toNat_natCast]

/-- A significand that is shifted to the exponent that the format asks for is canonical. -/
theorem canonical_shift {m : ℕ} {e : ℤ} {k : ℕ}
    (h : F.targetExponent (totalExponent m e) = e + k) : Canonical F (m / 2 ^ k) (e + k) := by
  have hbits : F.mantissaBits = 1 + F.mantissaBitsWithoutImplicit := rfl
  rw [Format.targetExponent, totalExponent] at h
  refine ⟨?_, h ▸ le_max_right _ _, or_iff_not_imp_left.2 fun hne => ?_⟩
  · rw [Nat.div_lt_iff_lt_mul (Nat.two_pow_pos k), ← pow_add]
    exact Nat.lt_log2_self.trans_le (Nat.pow_le_pow_right two_pos (by omega))
  · have hm : m ≠ 0 := by
      -- Without digits only the least exponent is asked for.
      rintro rfl
      have := F.hm
      rw [Nat.log2_zero] at h
      omega
    rw [Nat.le_div_iff_mul_le (Nat.two_pow_pos k), ← pow_add]
    exact (Nat.pow_le_pow_right two_pos (by omega)).trans (Nat.log2_self_le hm)

/-- A canonical significand, or the next number in its place, is brought into canonical form
    by one more shift, which loses nothing. -/
theorem exists_canonical_carry {m r : ℕ} {e : ℤ} (h : Canonical F m e)
    (hr : r = m ∨ r = m + 1) :
    ∃ (em : ExtendedMantissa) (e' : ℤ), shiftToTargetExponent F r e .exact = (em, e') ∧
      Canonical F em.mantissa e' ∧ (em.mantissa : ℝ) * 2 ^ e' = r * 2 ^ e := by
  have hfull := two_pow_mantissaBits F
  rcases Nat.lt_or_ge r (2 ^ F.mantissaBits) with hlt | hge
  · have hcanonical : Canonical F r e :=
      ⟨hlt, h.minExponent_le, h.full.imp_right fun hle => hle.trans (by omega)⟩
    have hshift := shiftToTargetExponent_eq (k := 0) .exact
      (hcanonical.targetExponent.trans (add_zero e).symm)
    rw [Nat.cast_zero, add_zero] at hshift
    exact ⟨_, _, hshift, hcanonical, rfl⟩
  · -- The significand was rounded up to one digit more.
    obtain rfl : r = 2 ^ F.mantissaBits := by
      have hlt := h.lt
      omega
    have htotal : F.targetExponent (totalExponent (2 ^ F.mantissaBits) e) = e + (1 : ℕ) := by
      have hmin := h.minExponent_le
      rw [Format.targetExponent, totalExponent, Nat.log2_two_pow]
      omega
    have hshift := shiftToTargetExponent_eq .exact htotal
    have hmantissa : (ExtendedMantissa.ofMantissaAndAccuracy (2 ^ F.mantissaBits) .exact >>>
        1).mantissa = 2 ^ F.mantissaBitsWithoutImplicit := by
      rw [mantissa_shiftRight, mantissa_ofMantissaAndAccuracy, hfull, pow_one,
        Nat.mul_div_cancel_left _ two_pos]
    refine ⟨_, _, hshift, ?_, ?_⟩
    · rw [hmantissa]
      refine ⟨?_, h.minExponent_le.trans (Int.le_add_of_nonneg_right (Int.natCast_nonneg 1)),
        .inr le_rfl⟩
      rw [hfull]
      exact lt_two_mul_self (Nat.two_pow_pos _)
    · rw [hmantissa, hfull, Nat.cast_one, zpow_add_one₀ two_ne_zero]
      push_cast
      ring

/-! ### Rounding -/

/-- The unpacked number with a sign, a significand and an exponent, which is zero if the
    significand is. -/
def signed (s : Sign) (m : ℕ) (e : ℤ) : UnpackedFloat :=
  if h : m = 0 then .zero s else .finite s m e (Nat.pos_of_ne_zero h)

/-- A number between two neighbours is nearest to the one from which it is no further than
    from the middle. -/
theorem nearest_of_between {m r : ℕ} {e : ℤ} {y : ℝ} (h : Canonical F m e)
    (hr : Representable F (r * 2 ^ e)) (hle : m ≤ y) (hlt : y < m + 1)
    (hround : (r = m ∧ y - m ≤ 1 / 2) ∨ (r = m + 1 ∧ m + 1 - y ≤ 1 / 2)) :
    Nearest F (y * 2 ^ e) (r * 2 ^ e) := by
  refine ⟨hr, fun s hs => ?_⟩
  have hu : (0 : ℝ) < 2 ^ e := by positivity
  have hs' := hs.le_or_succ_le h
  have hbelow := mul_le_mul_of_nonneg_right hle hu.le
  have habove := mul_le_mul_of_nonneg_right hlt.le hu.le
  rcases hround with ⟨rfl, hhalf⟩ | ⟨rfl, hhalf⟩
  · have hhalf' := mul_le_mul_of_nonneg_right hhalf hu.le
    rw [abs_of_nonneg (sub_nonneg.2 hbelow)]
    rcases hs' with hs' | hs'
    · exact (by linarith : _ ≤ y * 2 ^ e - s).trans (le_abs_self _)
    · exact (by linarith : _ ≤ -(y * 2 ^ e - s)).trans (neg_le_abs _)
  · have hhalf' := mul_le_mul_of_nonneg_right hhalf hu.le
    rw [Nat.cast_add, Nat.cast_one, abs_of_nonpos (sub_nonpos.2 habove)]
    rcases hs' with hs' | hs'
    · exact (by linarith : _ ≤ y * 2 ^ e - s).trans (le_abs_self _)
    · exact (by linarith : _ ≤ -(y * 2 ^ e - s)).trans (neg_le_abs _)

/-- Rounding finds a nearest number, in canonical form, if the significand has digits enough
    for the format. -/
theorem roundWithAccuracy_nearest {m : ℕ} {e : ℤ} {acc : Accuracy} {y : ℝ}
    (hy : Represents (.ofMantissaAndAccuracy m acc) y)
    (he : e ≤ F.targetExponent (totalExponent m e)) (s : Sign) :
    ∃ (m' : ℕ) (e' : ℤ), Canonical F m' e' ∧ Nearest F (y * 2 ^ e) (m' * 2 ^ e') ∧
      roundWithAccuracy F s m e acc = signed s m' e' := by
  obtain ⟨k, hk⟩ := Int.le.dest he
  have hshift := shiftToTargetExponent_eq acc hk.symm
  have hcanonical := canonical_shift hk.symm
  have hrep := hy.shiftRight k
  have hmantissa : (ExtendedMantissa.ofMantissaAndAccuracy m acc >>> k).mantissa = m / 2 ^ k := by
    rw [mantissa_shiftRight, mantissa_ofMantissaAndAccuracy]
  rw [← hmantissa] at hcanonical
  generalize ExtendedMantissa.ofMantissaAndAccuracy m acc >>> k = em at hshift hcanonical hrep
  obtain ⟨em', e', hcarry, hcanonical', hvalue⟩ :=
    exists_canonical_carry hcanonical (hrep.rounded.imp And.left And.left)
  have hscale : y * 2 ^ e = y / 2 ^ k * 2 ^ (e + k) := by
    rw [zpow_add₀ two_ne_zero, zpow_natCast]
    field_simp
  refine ⟨em'.mantissa, e', hcanonical', ?_, ?_⟩
  · rw [hscale, hvalue]
    exact nearest_of_between hcanonical (hvalue ▸ hcanonical'.representable) hrep.mantissa_le
      hrep.lt_succ hrep.rounded
  · simp only [roundWithAccuracy, hshift, hcarry, signed]

/-! ### Operations -/

theorem minExponent_nonpos (F : Format) : F.minExponent ≤ 0 := by
  have hpow : (1 : ℤ) ≤ 2 ^ (F.exponentBits - 1) := by exact_mod_cast Nat.one_le_two_pow
  have := F.hm
  rw [Format.minExponent, Format.mantissaBits]
  omega

/-- The product of two canonical significands has digits enough to be rounded. -/
theorem Canonical.exponent_add_le {m₁ m₂ : ℕ} {e₁ e₂ : ℤ} (h₁ : Canonical F m₁ e₁)
    (h₂ : Canonical F m₂ e₂) (hm₁ : 0 < m₁) (hm₂ : 0 < m₂) :
    e₁ + e₂ ≤ F.targetExponent (totalExponent (m₁ * m₂) (e₁ + e₂)) := by
  have hlarge (hfull : 2 ^ F.mantissaBitsWithoutImplicit ≤ m₁ * m₂) :
      e₁ + e₂ ≤ F.targetExponent (totalExponent (m₁ * m₂) (e₁ + e₂)) := by
    have hlog := (Nat.le_log2 (Nat.mul_pos hm₁ hm₂).ne').2 hfull
    refine le_max_of_le_left ?_
    rw [totalExponent, Format.mantissaBits]
    omega
  rcases h₁.full with rfl | hfull
  · rcases h₂.full with rfl | hfull
    · exact (add_le_of_nonpos_left (minExponent_nonpos F)).trans (le_max_right _ _)
    · exact hlarge (hfull.trans (Nat.le_mul_of_pos_left m₂ hm₁))
  · exact hlarge (hfull.trans (Nat.le_mul_of_pos_right m₁ hm₂))

/-- Products are rounded to a nearest number. -/
theorem mul_nearest {m₁ m₂ : ℕ} {e₁ e₂ : ℤ} (h₁ : Canonical F m₁ e₁) (h₂ : Canonical F m₂ e₂)
    (hm₁ : 0 < m₁) (hm₂ : 0 < m₂) (s₁ s₂ : Sign) :
    ∃ (m : ℕ) (e : ℤ), Canonical F m e ∧
      Nearest F (m₁ * 2 ^ e₁ * (m₂ * 2 ^ e₂)) (m * 2 ^ e) ∧
        UnpackedFloat.mul F (.finite s₁ m₁ e₁ hm₁) (.finite s₂ m₂ e₂ hm₂) =
          signed (s₁ * s₂) m e := by
  obtain ⟨m, e, h, hnearest, hround⟩ := roundWithAccuracy_nearest (.exact (m₁ * m₂))
    (h₁.exponent_add_le h₂ hm₁ hm₂) (s₁ * s₂)
  have hvalue : ((m₁ * m₂ : ℕ) : ℝ) * 2 ^ (e₁ + e₂) = m₁ * 2 ^ e₁ * (m₂ * 2 ^ e₂) := by
    rw [zpow_add₀ two_ne_zero]
    push_cast
    ring
  rw [hvalue] at hnearest
  exact ⟨m, e, h, hnearest, hround⟩

theorem shiftLeft_value (m : ℕ) {e t : ℤ} (h : t ≤ e) :
    ((m <<< (e - t).toNat : ℕ) : ℝ) * 2 ^ t = m * 2 ^ e := by
  obtain ⟨k, rfl⟩ := Int.le.dest h
  rw [add_sub_cancel_left, Int.toNat_natCast, Nat.shiftLeft_eq, zpow_add₀ two_ne_zero,
    zpow_natCast]
  push_cast
  ring

theorem shiftLeft_pos {m : ℕ} (hm : 0 < m) (k : ℕ) : 0 < m <<< k := by
  rw [Nat.shiftLeft_eq]
  exact Nat.mul_pos hm (Nat.two_pow_pos k)

theorem totalExponent_shiftLeft {m : ℕ} (hm : 0 < m) {e t : ℤ} (h : t ≤ e) :
    totalExponent (m <<< (e - t).toNat) t = totalExponent m e := by
  obtain ⟨k, rfl⟩ := Int.le.dest h
  rw [add_sub_cancel_left, Int.toNat_natCast, Nat.shiftLeft_eq, totalExponent_shift hm]

/-! ### Square roots -/

/-- The accuracy that is found for an integer root is that of the root. -/
theorem represents_sqrt (m : ℕ) :
    Represents (.ofMantissaAndAccuracy m.sqrt (if m - m.sqrt * m.sqrt = 0 then .exact
      else .inexact (if m - m.sqrt * m.sqrt ≤ m.sqrt then .lt else .gt))) √(m : ℝ) := by
  obtain ⟨d, hd⟩ := Nat.le.dest (Nat.sqrt_le m)
  have hlt := Nat.lt_succ_sqrt m
  generalize m.sqrt = r at hd hlt ⊢
  have hm : (m : ℝ) = r * r + d := by exact_mod_cast hd.symm
  have hlt' : (m : ℝ) < (r + 1) * (r + 1) := by exact_mod_cast hlt
  rw [show m - r * r = d by omega]
  have hr : (0 : ℝ) ≤ r := Nat.cast_nonneg r
  rcases Nat.eq_zero_or_pos d with rfl | hpos
  · rw [Nat.cast_zero, add_zero] at hm
    rw [if_pos rfl, hm, Real.sqrt_mul_self hr]
    exact .exact r
  · have hpos' : (0 : ℝ) < d := Nat.cast_pos.2 hpos
    rw [if_neg hpos.ne']
    rcases Nat.lt_or_ge r d with hgt | hle
    · -- The root is above the middle, as the square of that is not an integer.
      have hgt' : (r : ℝ) + 1 ≤ d := by exact_mod_cast hgt
      rw [if_neg (not_le.2 hgt)]
      refine .of_gt (Real.lt_sqrt_of_sq_lt ?_) ((Real.sqrt_lt' (by linarith)).2 ?_)
      · linarith
      · linarith
    · have hle' : (d : ℝ) ≤ r := Nat.cast_le.2 hle
      rw [if_pos hle]
      refine .of_lt (Real.lt_sqrt_of_sq_lt ?_) ((Real.sqrt_lt' (by linarith)).2 ?_)
      · linarith
      · linarith

/-- An integer root has half as many digits. -/
theorem log2_sqrt {m : ℕ} (hm : 0 < m) : m.sqrt.log2 = m.log2 / 2 := by
  have hle := Nat.log2_self_le hm.ne'
  have hlt : m < 2 ^ (m.log2 + 1) := Nat.lt_log2_self
  have hpos : m.sqrt ≠ 0 := (Nat.sqrt_pos.2 hm).ne'
  refine (Nat.log2_eq_iff hpos).2 ⟨?_, ?_⟩
  · rw [Nat.le_sqrt, ← pow_add]
    exact (Nat.pow_le_pow_right two_pos (by omega)).trans hle
  · rw [Nat.sqrt_lt, ← pow_add]
    exact hlt.trans_le (Nat.pow_le_pow_right two_pos (by omega))

/-- Square roots are rounded to a nearest number. -/
theorem sqrt_nearest {m : ℕ} {e : ℤ} (hm : 0 < m) :
    ∃ (m' : ℕ) (e' : ℤ), Canonical F m' e' ∧ Nearest F √(m * 2 ^ e) (m' * 2 ^ e') ∧
      UnpackedFloat.sqrt F (.finite .positive m e hm) = signed .positive m' e' := by
  set t := min (e / 2) (F.targetExponent ((totalExponent m e + 1) / 2)) with ht
  have hexponent : 2 * t ≤ e := by
    have hmin : t ≤ e / 2 := min_le_left _ _
    omega
  set M := m <<< (e - 2 * t).toNat with hM
  have hMpos : 0 < M := shiftLeft_pos hm _
  have htotal : totalExponent M.sqrt t = (totalExponent m e + 1) / 2 := by
    rw [← totalExponent_shiftLeft hm hexponent, ← hM, totalExponent, totalExponent, log2_sqrt hMpos]
    omega
  obtain ⟨m', e', h, hnearest, hround⟩ := roundWithAccuracy_nearest (F := F) (represents_sqrt M)
    (e := t) (by rw [htotal]; exact min_le_right _ _) .positive
  have hvalue : √(M : ℝ) * 2 ^ t = √(m * 2 ^ e) := by
    rw [← shiftLeft_value m hexponent, ← hM, two_mul, zpow_add₀ two_ne_zero,
      Real.sqrt_mul (Nat.cast_nonneg _), Real.sqrt_mul_self (by positivity)]
  rw [hvalue] at hnearest
  exact ⟨m', e', h, hnearest, hround⟩

/-! ### Quotients -/

/-- The accuracy that is found for an integer quotient is that of the quotient. -/
theorem represents_div (m : ℕ) {d : ℕ} (hd : 0 < d) :
    Represents (.ofMantissaAndAccuracy (m / d) (accuracyOfFraction (m % d) d))
      ((m : ℝ) / d) := by
  have hd' : (0 : ℝ) < d := Nat.cast_pos.2 hd
  have hm : (m : ℝ) / d = (m / d : ℕ) + (m % d : ℕ) / d := by
    rw [eq_comm, ← eq_sub_iff_add_eq, ← sub_div, eq_div_iff hd'.ne', eq_sub_iff_add_eq]
    exact_mod_cast Nat.div_add_mod' m d
  have hlt : ((m % d : ℕ) : ℝ) / d < 1 := by
    rw [div_lt_one hd']
    exact_mod_cast Nat.mod_lt m hd
  rw [hm, accuracyOfFraction]
  generalize m / d = q at *
  generalize m % d = r at *
  rcases Nat.eq_zero_or_pos r with rfl | hr
  · rw [if_pos rfl, Nat.cast_zero, zero_div, add_zero]
    exact .exact q
  · have hr' : (0 : ℝ) < r / d := div_pos (Nat.cast_pos.2 hr) hd'
    rw [if_neg hr.ne']
    rcases lt_trichotomy (2 * r) d with h | h | h
    · rw [Nat.compare_eq_lt.2 h]
      refine .of_lt (by linarith) (add_lt_add_right ?_ _)
      rw [div_lt_iff₀ hd']
      have h' : (2 : ℝ) * r < d := by exact_mod_cast h
      linarith
    · rw [Nat.compare_eq_eq.2 h]
      refine .of_eq (congrArg _ ?_)
      rw [div_eq_iff hd'.ne']
      have h' : (2 : ℝ) * r = d := by exact_mod_cast h
      linarith
    · rw [Nat.compare_eq_gt.2 h]
      refine .of_gt (add_lt_add_right ?_ _) (by linarith)
      rw [lt_div_iff₀ hd']
      have h' : (d : ℝ) < 2 * r := by exact_mod_cast h
      linarith

/-- An integer quotient has no less digits than the dividend has more than the divisor. -/
theorem log2_le_log2_div {m d : ℕ} (hd : 0 < d) (hq : 0 < m / d) :
    m.log2 ≤ (m / d).log2 + d.log2 + 1 := by
  have hm : m ≠ 0 := by
    rintro rfl
    exact absurd (Nat.zero_div d) hq.ne'
  by_contra! hlt
  obtain ⟨k, hk⟩ := Nat.le.dest hlt
  have hle : 2 ^ ((m / d).log2 + 1) ≤ m / d := by
    rw [Nat.le_div_iff_mul_le hd]
    have hpow : d ≤ 2 ^ (d.log2 + 1) := Nat.lt_log2_self.le
    calc 2 ^ ((m / d).log2 + 1) * d ≤ 2 ^ ((m / d).log2 + 1) * 2 ^ (d.log2 + 1) :=
          Nat.mul_le_mul_left _ hpow
      _ ≤ 2 ^ m.log2 := by
          rw [← pow_add]
          exact Nat.pow_le_pow_right two_pos (by omega)
      _ ≤ m := Nat.log2_self_le hm
  exact (Nat.lt_log2_self.trans_le hle).false

/-- Quotients are rounded to a nearest number. -/
theorem div_nearest {m₁ m₂ : ℕ} (e₁ e₂ : ℤ) (hm₁ : 0 < m₁) (hm₂ : 0 < m₂) (s₁ s₂ : Sign) :
    ∃ (m : ℕ) (e : ℤ), Canonical F m e ∧
      Nearest F (m₁ * 2 ^ e₁ / (m₂ * 2 ^ e₂)) (m * 2 ^ e) ∧
        UnpackedFloat.div F (.finite s₁ m₁ e₁ hm₁) (.finite s₂ m₂ e₂ hm₂) =
          signed (s₁ / s₂) m e := by
  set T := totalExponent m₁ e₁ - totalExponent m₂ e₂ with hT
  set t := min (e₁ - e₂) (F.targetExponent T) with ht
  have hexponent : t ≤ e₁ - e₂ := min_le_left _ _
  have htarget : t ≤ F.targetExponent T := min_le_right _ _
  set M := m₁ <<< (e₁ - e₂ - t).toNat with hM
  have hMpos : 0 < M := shiftLeft_pos hm₁ _
  have hlog : T = M.log2 + t - m₂.log2 := by
    have htotal := totalExponent_shiftLeft hm₁ hexponent
    rw [← hM, totalExponent, totalExponent] at htotal
    rw [hT, totalExponent, totalExponent]
    omega
  have hdigits : t ≤ F.targetExponent (totalExponent (M / m₂) t) := by
    rcases Nat.eq_zero_or_pos (M / m₂) with hq | hq
    · -- The quotient is less than one, so the least exponent was asked for.
      have hle : M.log2 ≤ m₂.log2 := by
        rw [Nat.div_eq_zero_iff_lt hm₂] at hq
        exact (Nat.le_log2 hm₂.ne').2 ((Nat.log2_self_le hMpos.ne').trans hq.le)
      have hbits : F.mantissaBits = 1 + F.mantissaBitsWithoutImplicit := rfl
      rw [Format.targetExponent] at htarget ⊢
      omega
    · have hle := log2_le_log2_div hm₂ hq
      refine htarget.trans (max_le_max_right _ (Int.sub_le_sub_right ?_ _))
      rw [totalExponent]
      omega
  obtain ⟨m, e, h, hnearest, hround⟩ :=
    roundWithAccuracy_nearest (F := F) (represents_div M hm₂) hdigits (s₁ / s₂)
  have hvalue : (M : ℝ) / m₂ * 2 ^ t = m₁ * 2 ^ e₁ / (m₂ * 2 ^ e₂) := by
    rw [div_mul_eq_mul_div, shiftLeft_value m₁ hexponent, zpow_sub₀ two_ne_zero]
    field_simp
  rw [hvalue] at hnearest
  exact ⟨m, e, h, hnearest, hround⟩

end Rounding

end HybridGradient
