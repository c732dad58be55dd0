import HybridGradient.Proofs.Packing
import HybridGradient.SpectralNorm

/-!
# Binary64 numbers read exactly

What is needed of binary64 arithmetic where a result is exact: sums and
quotients of normal numbers that are normal numbers themselves come out
unrounded. Where a sum has to be rounded, it stays a normal number.

* `Binary64.round_exact`: rounding leaves a normal number as it is;
* `Binary64.round_normal`: rounding a positive number that is neither too small
  nor too large gives a normal number;
* `SpectralNorm.ofBinary64_startComponent`: the components of every start vector are
  positive real numbers.
-/

namespace HybridGradient

open Float.Model Float.Model.UnpackedFloat Rounding

namespace Binary64

/-- Significand and exponent of a normal number. -/
structure IsNormal (m : Nat) (e : Int) : Prop where
  le_significand : 2 ^ 52 ≤ m
  significand_lt : m < 2 ^ 53
  le_exponent : -1074 ≤ e
  exponent_le : e ≤ 971

theorem IsNormal.pos {m : Nat} {e : Int} (h : IsNormal m e) : 0 < m :=
  lt_of_lt_of_le (by decide) h.le_significand

theorem isNormal_twoPow (e : Int) (hmin : -1074 ≤ e) (hmax : e ≤ 971) : IsNormal (2 ^ 52) e :=
  ⟨le_rfl, by decide, hmin, hmax⟩

/-- The unpacked positive number with a significand and an exponent. -/
def positive {m : Nat} {e : Int} (h : IsNormal m e) : UnpackedFloat :=
  .finite .positive m e h.pos

theorem targetExponent_eq (t : Int) :
    Format.binary64.targetExponent t = max (t - 53) (-1074) := by
  rw [Format.targetExponent]
  norm_num [Format.minExponent, Format.mantissaBits]

/-! ### The position of the first digit -/

theorem IsNormal.totalExponent {m : Nat} {e : Int} (h : IsNormal m e) :
    totalExponent m e = 53 + e :=
  totalExponent_of_bounds (k := 52) e h.le_significand h.significand_lt

theorem IsNormal.targetExponent {m : Nat} {e : Int} (h : IsNormal m e) :
    Format.binary64.targetExponent (Float.Model.totalExponent m e) = e := by
  have := h.le_exponent
  rw [h.totalExponent, targetExponent_eq]
  omega

/-! ### Shifting -/

theorem decreaseExponent_add (m : Nat) (e : Int) (k : Nat) :
    decreaseExponent m (e + k) e = (m * 2 ^ k, e) := by
  rw [decreaseExponent, Nat.shiftLeft_eq]
  have : (e + k - e).toNat = k := by omega
  rw [this]
  simp

theorem decreaseExponent_of_le {e t : Int} (h : e ≤ t) (m : Nat) :
    decreaseExponent m e t = (m, e) := by
  rw [decreaseExponent, Int.toNat_eq_zero.2 (by omega)]
  simp

theorem shiftRight_exact (m k : Nat) :
    (⟨m * 2 ^ k, false, false⟩ : ExtendedMantissa) >>> k = ⟨m, false, false⟩ := by
  induction k generalizing m with
  | zero => rw [pow_zero, mul_one]; rfl
  | succ k ih =>
    rw [shiftRight_succ, pow_succ', ← mul_assoc, ih]
    simp [ExtendedMantissa.shiftRightOne]

/-- Rounding takes the significand or the next one. -/
theorem roundedMantissa_bounds (em : ExtendedMantissa) :
    em.mantissa ≤ em.roundedMantissa ∧ em.roundedMantissa ≤ em.mantissa + 1 := by
  obtain ⟨m, _ | _, _ | _⟩ := em <;>
    simp only [ExtendedMantissa.roundedMantissa, ExtendedMantissa.accuracy,
      Accuracy.roundToNearestEven] <;> omega

/-! ### Rounding -/

/-- Rounding shifts a significand, rounds it, and shifts it once more. -/
theorem roundWithAccuracy_eq {m : Nat} {e e₁ e₂ : Int} {acc : Accuracy}
    {em₁ em₂ : ExtendedMantissa} (h₁ : shiftToTargetExponent .binary64 m e acc = (em₁, e₁))
    (h₂ : shiftToTargetExponent .binary64 em₁.roundedMantissa e₁ .exact = (em₂, e₂))
    (h : IsNormal em₂.mantissa e₂) :
    roundWithAccuracy .binary64 .positive m e acc = positive h := by
  simp only [roundWithAccuracy, h₁, h₂]
  exact dif_neg h.pos.ne'

/-- A normal significand is not shifted. -/
theorem IsNormal.shiftToTargetExponent {m : Nat} {e : Int} (h : IsNormal m e) :
    shiftToTargetExponent .binary64 m e .exact = (⟨m, false, false⟩, e) := by
  have htarget : Format.binary64.targetExponent (Float.Model.totalExponent m e) =
      e + (0 : Nat) := by
    rw [h.targetExponent, Int.natCast_zero, add_zero]
  rw [shiftToTargetExponent_eq _ htarget, Int.natCast_zero, add_zero]
  rfl

/-- A normal number needs no rounding. -/
theorem roundWithAccuracy_exact {m : Nat} {e : Int} {k : Nat} (h : IsNormal m (e + k)) :
    roundWithAccuracy .binary64 .positive (m * 2 ^ k) e .exact = positive h := by
  have htarget : Format.binary64.targetExponent (totalExponent (m * 2 ^ k) e) = e + k := by
    rw [totalExponent_shift h.pos, h.targetExponent]
  have hshift := shiftToTargetExponent_eq .exact htarget
  rw [ExtendedMantissa.ofMantissaAndAccuracy, shiftRight_exact] at hshift
  exact roundWithAccuracy_eq hshift h.shiftToTargetExponent h

/-- What is rounded to the precision of a normal number becomes one. -/
theorem roundWithAccuracy_normal {m : Nat} {e : Int} {k : Nat} (acc : Accuracy)
    (hle : 2 ^ (52 + k) ≤ m) (hlt : m < 2 ^ (53 + k)) (hmin : -1074 ≤ e + k)
    (hmax : e + k ≤ 970) :
    ∃ (m' : Nat) (e' : Int) (h : IsNormal m' e'),
      roundWithAccuracy .binary64 .positive m e acc = positive h := by
  have htarget : Format.binary64.targetExponent (totalExponent m e) = e + k := by
    rw [totalExponent_of_bounds (k := 52 + k) e hle (by rwa [add_right_comm]), targetExponent_eq]
    push_cast
    omega
  have hshift := shiftToTargetExponent_eq acc htarget
  generalize hem : ExtendedMantissa.ofMantissaAndAccuracy m acc >>> k = em at hshift
  have hm : em.mantissa = m / 2 ^ k := by
    rw [← hem, mantissa_shiftRight, mantissa_ofMantissaAndAccuracy]
  have hle' : 2 ^ 52 ≤ em.mantissa := by
    rw [hm, Nat.le_div_iff_mul_le (Nat.two_pow_pos k), ← pow_add]
    exact hle
  have hlt' : em.mantissa < 2 ^ 53 := by
    rw [hm, Nat.div_lt_iff_lt_mul (Nat.two_pow_pos k), ← pow_add]
    exact hlt
  obtain ⟨hround, hround'⟩ := roundedMantissa_bounds em
  rcases Nat.lt_or_ge em.roundedMantissa (2 ^ 53) with h53 | h53
  · have h : IsNormal em.roundedMantissa (e + k) := ⟨by omega, h53, hmin, by omega⟩
    exact ⟨_, _, h, roundWithAccuracy_eq hshift h.shiftToTargetExponent h⟩
  · -- The significand was rounded up to one digit more.
    have hr : em.roundedMantissa = 2 ^ 52 * 2 ^ 1 := by omega
    have h : IsNormal (2 ^ 52) (e + k + (1 : Nat)) := ⟨le_rfl, by decide, by omega, by omega⟩
    have hshift' := shiftToTargetExponent_eq .exact
      ((congrArg _ (totalExponent_shift h.pos (e + k) 1)).trans h.targetExponent)
    rw [ExtendedMantissa.ofMantissaAndAccuracy, shiftRight_exact, ← hr] at hshift'
    exact ⟨_, _, h, roundWithAccuracy_eq hshift hshift' h⟩

/-- A normal number is left as it is, in whatever form it is given. -/
theorem round_exact {m : Nat} {e : Int} (h : IsNormal m e) {m' : Nat} {e' : Int}
    (hv : (m' : ℝ) * 2 ^ e' = m * 2 ^ e) :
    UnpackedFloat.round .binary64 .positive m' e' = positive h := by
  rcases le_total e' e with hle | hle
  · -- The significand has zeros at its end, which are shifted out.
    obtain ⟨k, rfl⟩ := Int.le.dest hle
    have hm : m' = m * 2 ^ k := by
      rw [zpow_add₀ two_ne_zero, mul_left_comm, mul_comm, zpow_natCast] at hv
      exact_mod_cast mul_left_cancel₀ (zpow_ne_zero e' (two_ne_zero' ℝ)) hv
    subst hm
    rw [UnpackedFloat.round, totalExponent_shift h.pos, h.targetExponent,
      decreaseExponent_of_le hle]
    exact roundWithAccuracy_exact h
  · -- The significand is shorter than that of a normal number, and is shifted up first.
    obtain ⟨k, rfl⟩ := Int.le.dest hle
    have hm : m = m' * 2 ^ k := by
      rw [zpow_add₀ two_ne_zero, mul_left_comm, mul_comm (m : ℝ), zpow_natCast] at hv
      exact_mod_cast (mul_left_cancel₀ (zpow_ne_zero e (two_ne_zero' ℝ)) hv).symm
    have hpos : 0 < m' := Nat.pos_of_ne_zero fun h0 => h.pos.ne' (by rw [hm, h0, zero_mul])
    have h0 : IsNormal m (e + (0 : Nat)) := by simpa using h
    rw [UnpackedFloat.round, ← totalExponent_shift hpos, ← hm, h.targetExponent,
      decreaseExponent_add, ← hm]
    simpa [positive] using roundWithAccuracy_exact h0

/-- A positive number that is neither too small nor too large is rounded to a normal
    number. -/
theorem round_normal {m : Nat} {e : Int} (hm : 0 < m) (hmin : -1021 ≤ totalExponent m e)
    (hmax : totalExponent m e ≤ 1023) :
    ∃ (m' : Nat) (e' : Int) (h : IsNormal m' e'),
      UnpackedFloat.round .binary64 .positive m e = positive h := by
  have hle := Nat.log2_self_le hm.ne'
  have hlt := (Nat.log2_lt hm.ne' (k := m.log2 + 1)).1 (Nat.lt_succ_self _)
  have htarget : Format.binary64.targetExponent (totalExponent m e) = m.log2 + e - 52 := by
    rw [targetExponent_eq]
    rw [totalExponent] at hmin ⊢
    omega
  rw [totalExponent] at hmin hmax
  rw [UnpackedFloat.round, htarget]
  rcases Nat.le_total m.log2 52 with hlog | hlog
  · -- The significand has too few digits, and is shifted up.
    obtain ⟨k, hk⟩ := Nat.le.dest hlog
    have hexp : e = m.log2 + e - 52 + k := by omega
    rw [show decreaseExponent m e (m.log2 + e - 52) = (m * 2 ^ k, m.log2 + e - 52) by
      conv_lhs => arg 2; rw [hexp]
      exact decreaseExponent_add _ _ _]
    refine roundWithAccuracy_normal (k := 0) .exact ?_ ?_ (by omega) (by omega)
    · rw [add_zero, ← hk, pow_add]
      exact Nat.mul_le_mul_right _ hle
    · rw [add_zero, show 53 = m.log2 + 1 + k by omega, pow_add]
      exact Nat.mul_lt_mul_of_pos_right hlt (Nat.two_pow_pos k)
  · -- The significand has digits enough, and is rounded to 53 of them.
    obtain ⟨k, hk⟩ := Nat.le.dest hlog
    rw [decreaseExponent_of_le (by omega)]
    refine roundWithAccuracy_normal (k := k) .exact ?_ ?_ (by omega) (by omega)
    · rwa [hk]
    · rwa [show 53 + k = m.log2 + 1 by omega]

/-! ### Packing -/

theorem IsNormal.canonical {m : Nat} {e : Int} (h : IsNormal m e) : Canonical .binary64 m e :=
  ⟨h.significand_lt, h.le_exponent, .inr h.le_significand⟩

/-- A normal number survives packing. -/
theorem unpack_pack {m : Nat} {e : Int} (h : IsNormal m e) :
    (Float.Model.pack (positive h)).unpack = positive h :=
  unpack_pack_finite h.pos h.canonical h.exponent_le .positive

/-! ### Sums and quotients -/

/-- The exact value of a positive normal number. -/
theorem ofUnpacked_positive {m : Nat} {e : Int} (h : IsNormal m e) :
    Extended.ofUnpacked (positive h) = .real (m * 2 ^ e) := by
  simp [positive, Extended.ofUnpacked, Sign.apply]

theorem decreaseExponent_value {m : Nat} {e t : Int} (h : t ≤ e) :
    ((decreaseExponent m e t).1 : ℝ) * 2 ^ t = m * 2 ^ e := by
  obtain ⟨k, rfl⟩ := Int.le.dest h
  rw [decreaseExponent_add, zpow_add₀ two_ne_zero, zpow_natCast]
  push_cast
  ring

/-- A sum of positive numbers is rounded from its exact value. -/
theorem add_eq_round {m₁ m₂ : Nat} {e₁ e₂ : Int} (h₁ : IsNormal m₁ e₁) (h₂ : IsNormal m₂ e₂) :
    ∃ (m : Nat) (e : Int), 0 < m ∧ (m : ℝ) * 2 ^ e = m₁ * 2 ^ e₁ + m₂ * 2 ^ e₂ ∧
      UnpackedFloat.add .binary64 (positive h₁) (positive h₂) =
        UnpackedFloat.round .binary64 .positive m e := by
  have hv₁ := decreaseExponent_value (m := m₁) (min_le_left e₁ e₂)
  have hv₂ := decreaseExponent_value (m := m₂) (min_le_right e₁ e₂)
  generalize hd₁ : (decreaseExponent m₁ e₁ (min e₁ e₂)).1 = d₁ at hv₁
  generalize hd₂ : (decreaseExponent m₂ e₂ (min e₁ e₂)).1 = d₂ at hv₂
  have hpos : 0 < d₁ := by
    rw [← hd₁, decreaseExponent, Nat.shiftLeft_eq]
    exact Nat.mul_pos h₁.pos (Nat.two_pow_pos _)
  refine ⟨d₁ + d₂, min e₁ e₂, by omega, ?_, ?_⟩
  · push_cast
    rw [add_mul, hv₁, hv₂]
  · simp only [positive, UnpackedFloat.add, hd₁, hd₂, Sign.apply]
    rw [UnpackedFloat.normalize, Int.compare_eq_gt.2 (by omega)]
    rfl

/-- A sum that is a normal number is exact. -/
theorem add_exact {m₁ m₂ m : Nat} {e₁ e₂ e : Int} (h₁ : IsNormal m₁ e₁) (h₂ : IsNormal m₂ e₂)
    (h : IsNormal m e) (hv : (m : ℝ) * 2 ^ e = m₁ * 2 ^ e₁ + m₂ * 2 ^ e₂) :
    UnpackedFloat.add .binary64 (positive h₁) (positive h₂) = positive h := by
  obtain ⟨m', e', -, hv', hround⟩ := add_eq_round h₁ h₂
  rw [hround, round_exact h (hv'.trans hv.symm)]

/-- The value of a number bounds the position of its first digit. -/
theorem totalExponent_of_value {m : Nat} {e a b : Int} (hm : 0 < m)
    (hle : (2 : ℝ) ^ a ≤ m * 2 ^ e) (hlt : (m : ℝ) * 2 ^ e < 2 ^ b) :
    a < totalExponent m e ∧ totalExponent m e ≤ b := by
  have hle' : (2 : ℝ) ^ (m.log2 : Int) ≤ m := by
    rw [zpow_natCast]
    exact_mod_cast Nat.log2_self_le hm.ne'
  have hlt' : (m : ℝ) < 2 ^ ((m.log2 : Int) + 1) := by
    rw [show (m.log2 : Int) + 1 = (m.log2 + 1 : Nat) by push_cast; rfl, zpow_natCast]
    exact_mod_cast (Nat.log2_lt hm.ne').1 (Nat.lt_succ_self _)
  have h2e : (0 : ℝ) < 2 ^ e := by positivity
  have h₁ : (2 : ℝ) ^ a < 2 ^ (totalExponent m e) := by
    rw [totalExponent, zpow_add₀ two_ne_zero]
    exact hle.trans_lt (mul_lt_mul_of_pos_right hlt' h2e)
  have h₂ : (2 : ℝ) ^ (m.log2 + e : Int) < 2 ^ b := by
    rw [zpow_add₀ two_ne_zero]
    exact (mul_le_mul_of_nonneg_right hle' h2e.le).trans_lt hlt
  rw [zpow_lt_zpow_iff_right₀ one_lt_two] at h₁ h₂
  rw [totalExponent] at h₁ ⊢
  omega

theorem IsNormal.le_value {m : Nat} {e : Int} (h : IsNormal m e) :
    (2 : ℝ) ^ (52 + e) ≤ m * 2 ^ e := by
  rw [zpow_add₀ two_ne_zero]
  refine mul_le_mul_of_nonneg_right ?_ (by positivity)
  exact_mod_cast h.le_significand

theorem IsNormal.value_lt {m : Nat} {e : Int} (h : IsNormal m e) :
    (m : ℝ) * 2 ^ e < 2 ^ (53 + e) := by
  rw [zpow_add₀ two_ne_zero]
  refine mul_lt_mul_of_pos_right ?_ (by positivity)
  exact_mod_cast h.significand_lt

/-- A sum of normal numbers far from the largest ones is a normal number. -/
theorem add_normal {m₁ m₂ : Nat} {e₁ e₂ : Int} (h₁ : IsNormal m₁ e₁) (h₂ : IsNormal m₂ e₂)
    (hmax₁ : e₁ ≤ 969) (hmax₂ : e₂ ≤ 969) :
    ∃ (m : Nat) (e : Int) (h : IsNormal m e),
      UnpackedFloat.add .binary64 (positive h₁) (positive h₂) = positive h := by
  obtain ⟨m, e, hm, hv, hround⟩ := add_eq_round h₁ h₂
  have hlt {m' : Nat} {e' : Int} (h : IsNormal m' e') (hmax : e' ≤ 969) :
      (m' : ℝ) * 2 ^ e' < 2 ^ (1022 : Int) :=
    h.value_lt.trans_le (zpow_le_zpow_right₀ one_le_two (by omega))
  have htotal := totalExponent_of_value (a := 52 + e₁) (b := 1023) hm
    (by rw [hv]; exact h₁.le_value.trans (le_add_of_nonneg_right (by positivity)))
    (by
      rw [hv, show (1023 : Int) = 1022 + 1 by rfl, zpow_add_one₀ two_ne_zero, mul_two]
      exact add_lt_add (hlt h₁ hmax₁) (hlt h₂ hmax₂))
  have := h₁.le_exponent
  rw [hround]
  exact round_normal hm (by omega) htotal.2

/-- Dividing by a power of two only changes the exponent. -/
theorem div_exact {m : Nat} {e₁ e₂ : Int} (h₁ : IsNormal m e₁) (h₂ : IsNormal (2 ^ 52) e₂)
    (h : IsNormal m (e₁ - e₂ - 52)) (hmin : -1074 < e₁ - e₂ - 52) :
    UnpackedFloat.div .binary64 (positive h₁) (positive h₂) = positive h := by
  -- The quotient is computed with one digit more than fits, which is zero.
  have hexp : min (e₁ - e₂) (Format.binary64.targetExponent
      (totalExponent m e₁ - totalExponent (2 ^ 52) e₂)) = e₁ - e₂ - 53 := by
    rw [h₁.totalExponent, h₂.totalExponent, targetExponent_eq]
    omega
  have hcore : divCore .binary64 m e₁ (2 ^ 52) e₂ = (m * 2 ^ 1, e₁ - e₂ - 53, .exact) := by
    have hshift : (e₁ - e₂ - (e₁ - e₂ - 53)).toNat = 52 + 1 := by omega
    rw [divCore]
    simp only [hexp, hshift, Nat.shiftLeft_eq, pow_add]
    rw [mul_left_comm, Nat.mul_div_cancel_left _ (by decide), Nat.mul_mod_right]
    rfl
  have hk : e₁ - e₂ - 53 + (1 : Nat) = e₁ - e₂ - 52 := by omega
  have h' : IsNormal m (e₁ - e₂ - 53 + (1 : Nat)) := hk ▸ h
  simp only [positive, UnpackedFloat.div, hcore]
  refine (roundWithAccuracy_exact h').trans ?_
  simp only [positive, hk]

/-- The positive natural numbers up to the 53rd power of two are normal numbers. -/
theorem exists_isNormal {n : Nat} (hn : 0 < n) (hn' : n ≤ 2 ^ 53) :
    ∃ (m : Nat) (e : Int), IsNormal m e ∧ (m : ℝ) * 2 ^ e = n ∧ -52 ≤ e ∧ e ≤ 1 := by
  rcases Nat.eq_or_lt_of_le hn' with rfl | hlt
  · exact ⟨2 ^ 52, 1, isNormal_twoPow 1 (by decide) (by decide), by norm_num, by decide, by decide⟩
  have hle := Nat.log2_self_le hn.ne'
  have hlt' := (Nat.log2_lt hn.ne' (k := n.log2 + 1)).1 (Nat.lt_succ_self _)
  have hlog : n.log2 < 53 := (Nat.log2_lt hn.ne').2 hlt
  obtain ⟨k, hk⟩ := Nat.le.dest (Nat.le_of_lt_succ hlog)
  refine ⟨n * 2 ^ k, -k, ⟨?_, ?_, by omega, by omega⟩, ?_, by omega, by omega⟩
  · rw [← hk, pow_add]
    exact Nat.mul_le_mul_right _ hle
  · rw [show 53 = n.log2 + 1 + k by omega, pow_add]
    exact Nat.mul_lt_mul_of_pos_right hlt' (Nat.two_pow_pos k)
  · rw [zpow_neg, zpow_natCast]
    push_cast
    field_simp

/-! ### Numbers of the machine -/

/-- A machine number is a given positive normal number. -/
def Holds (x : Float) {m : Nat} {e : Int} (h : IsNormal m e) : Prop :=
  x.toModel.unpack = positive h

theorem Holds.of_eq_pack {x : Float} {m : Nat} {e : Int} {h : IsNormal m e}
    (hx : x.toModel = .pack (positive h)) : Holds x h := by
  rw [Holds, hx, unpack_pack]

theorem Holds.ofBinary64 {x : Float} {m : Nat} {e : Int} {h : IsNormal m e} (hx : Holds x h) :
    Extended.ofBinary64 x = .real (m * 2 ^ e) := by
  rw [Extended.ofBinary64, hx, ofUnpacked_positive]

theorem Holds.add {x y : Float} {m₁ m₂ m : Nat} {e₁ e₂ e : Int} {h₁ : IsNormal m₁ e₁}
    {h₂ : IsNormal m₂ e₂} (hx : Holds x h₁) (hy : Holds y h₂) (h : IsNormal m e)
    (hadd : UnpackedFloat.add .binary64 (positive h₁) (positive h₂) = positive h) :
    Holds (x + y) h := by
  have hmodel : (x + y).toModel =
      .pack (UnpackedFloat.add .binary64 x.toModel.unpack y.toModel.unpack) := rfl
  rw [hx, hy, hadd] at hmodel
  exact .of_eq_pack hmodel

theorem Holds.div {x y : Float} {m : Nat} {e₁ e₂ : Int} {h₁ : IsNormal m e₁}
    {h₂ : IsNormal (2 ^ 52) e₂} (hx : Holds x h₁) (hy : Holds y h₂)
    (h : IsNormal m (e₁ - e₂ - 52)) (hmin : -1074 < e₁ - e₂ - 52) : Holds (x / y) h := by
  have hmodel : (x / y).toModel =
      .pack (UnpackedFloat.div .binary64 x.toModel.unpack y.toModel.unpack) := rfl
  rw [hx, hy, div_exact h₁ h₂ h hmin] at hmodel
  exact .of_eq_pack hmodel

/-- A machine word of at most 53 digits is converted exactly. -/
theorem holds_toFloat {n : UInt64} {m : Nat} {e : Int} (h : IsNormal m e) (hn : 0 < n.toNat)
    (hv : (m : ℝ) * 2 ^ e = n.toNat) : Holds n.toFloat h := by
  have hmodel : n.toFloat.toModel =
      .pack (UnpackedFloat.normalize .binary64 n.toNat 0 .positive) := rfl
  rw [UnpackedFloat.normalize, Int.compare_eq_gt.2 (by omega)] at hmodel
  simp only [Int.toNat_natCast] at hmodel
  rw [round_exact h (by rw [zpow_zero, mul_one, hv])] at hmodel
  exact .of_eq_pack hmodel

end Binary64

open Binary64

/-! ### Components of start vectors -/

/-- The components of every start vector are positive real numbers. -/
theorem SpectralNorm.ofBinary64_startComponent (seed : UInt64) (j : Nat) :
    ∃ x : ℝ, 0 < x ∧ Extended.ofBinary64 (startComponent seed j) = .real x := by
  have hhalf : Holds 0.5 (isNormal_twoPow (-53) (by decide) (by decide)) :=
    .of_eq_pack (by decide +kernel)
  have hfin {x : Float} {m : Nat} {e : Int} {h : IsNormal m e} (hx : Holds x h) :
      ∃ y : ℝ, 0 < y ∧ Extended.ofBinary64 x = .real y :=
    ⟨_, mul_pos (Nat.cast_pos.2 h.pos) (by positivity), hx.ofBinary64⟩
  rw [startComponent]
  generalize (((seed <<< 32) ^^^ (UInt64.ofNat j + 1)) * 0x9E3779B97F4A7C15) = hash
  have hlt : (hash >>> 11).toNat < 2 ^ 53 := by
    have := hash.toNat_lt
    rw [UInt64.toNat_shiftRight, Nat.shiftRight_eq_div_pow]
    exact Nat.div_lt_of_lt_mul this
  change ∃ x : ℝ, 0 < x ∧
    Extended.ofBinary64 (0.5 + (hash >>> 11).toFloat / 9007199254740992.0) = .real x
  generalize hash >>> 11 = n at hlt ⊢
  -- The component is one half plus a multiple of the 53rd power of one half, below one.
  rcases Nat.eq_zero_or_pos n.toNat with h0 | hpos
  · have hn : n = 0 := UInt64.toNat_inj.1 h0
    subst hn
    have hsum : (0.5 + (0 : UInt64).toFloat / 9007199254740992.0 : Float) = 0.5 := by
      decide +kernel
    rw [hsum]
    exact hfin hhalf
  · obtain ⟨m, e, h, hv, hmin, hmax⟩ := exists_isNormal hpos hlt.le
    have hdenom : Holds 9007199254740992.0 (isNormal_twoPow 1 (by decide) (by decide)) :=
      .of_eq_pack (by decide +kernel)
    have hq : IsNormal m (e - 1 - 52) := ⟨h.le_significand, h.significand_lt, by omega, by omega⟩
    have hquot : Holds (n.toFloat / 9007199254740992.0) hq :=
      (holds_toFloat h hpos hv).div hdenom hq (by omega)
    obtain ⟨m', e', h', hadd⟩ :=
      add_normal (isNormal_twoPow (-53) (by decide) (by decide)) hq (by decide) (by omega)
    exact hfin (hhalf.add hquot h' hadd)

end HybridGradient
