import HybridGradient.Proofs.Packing

/-!
# Half a unit

Of the two neighbours of a number in a format, neither is nearer to what was rounded to it. So
rounding moves a number by no more than half a unit in the last digit of what it becomes. Relative
to the number, that is little if all digits of the format are in use, and no more than one half in
any case.

* `Rounding.Nearest.abs_sub_le_half`: the bound in units of the result;
* `Rounding.leastNormal`, `Rounding.Nearest.mul_abs_sub_le`: the relative error of normal numbers;
* `Rounding.Nearest.abs_sub_le_div_two`: that of all positive numbers.
-/

namespace HybridGradient

open Float.Model

namespace Rounding

variable {F : Format}

/-! ### Neighbours of a number -/

namespace Canonical

variable {m : ℕ} {e : ℤ}

theorem representable_succ (h : Canonical F m e) : Representable F ((m + 1) * 2 ^ e) := by
  have hmin := h.minExponent_le
  rcases (Nat.succ_le_of_lt h.lt).lt_or_eq with hlt | heq
  · rw [← Nat.cast_succ]
    exact representable_of_lt hlt hmin
  · have hcast : (m : ℝ) + 1 = 2 ^ (F.mantissaBits : ℤ) := by
      rw [zpow_natCast, ← Nat.cast_succ, heq]
      push_cast
      rfl
    rw [hcast, ← zpow_add₀ two_ne_zero]
    exact representable_two_pow (by omega)

theorem representable_pred (h : Canonical F m e) : Representable F ((m - 1) * 2 ^ e) := by
  cases m with
  | zero =>
    have hone := (representable_of_lt (canonical_one F).lt h.minExponent_le).neg
    rw [Nat.cast_one, ← neg_mul] at hone
    rwa [Nat.cast_zero, zero_sub]
  | succ m =>
    rw [Nat.cast_succ, add_sub_cancel_right]
    exact representable_of_lt (Nat.lt_of_succ_lt h.lt) h.minExponent_le

/-- A significand that is not the least one of its exponent has another one before it. -/
theorem pred (h : Canonical F (m + 1) e) (hm : 2 ^ F.mantissaBitsWithoutImplicit ≤ m) :
    Canonical F m e :=
  ⟨Nat.lt_of_succ_lt h.lt, h.minExponent_le, .inr hm⟩

end Canonical

/-! ### Half a unit -/

namespace Nearest

variable {x r : ℝ} {m : ℕ} {e : ℤ}

/-- Rounding moves a number by no more than half a unit of what it becomes. -/
theorem abs_sub_le_half (h : Nearest F x (m * 2 ^ e)) (hm : Canonical F m e) :
    |x - m * 2 ^ e| ≤ 2 ^ e / 2 := by
  have hu : (0 : ℝ) < 2 ^ e := by positivity
  have hsucc := h.abs_sub_le _ hm.representable_succ
  have hpred := h.abs_sub_le _ hm.representable_pred
  rw [add_one_mul, ← sub_sub, ← sq_le_sq] at hsucc
  rw [sub_one_mul, ← sub_add, ← sq_le_sq] at hpred
  exact abs_le.2 ⟨by nlinarith, by nlinarith⟩

/-- Above the middle to the next number, a number is rounded up. -/
theorem le_of_middle_lt (h : Nearest F x r) (hm : Canonical F m e)
    (hx : (m + 1 / 2) * 2 ^ e < x) : ((m : ℝ) + 1) * 2 ^ e ≤ r := by
  refine (h.representable.le_or_succ_le hm).resolve_left fun hle => ?_
  have habs := h.abs_sub_le _ hm.representable_succ
  have hu : (0 : ℝ) < 2 ^ e := by positivity
  rw [add_mul] at hx
  rw [add_one_mul, abs_of_nonneg (by linarith)] at habs
  rcases le_total x (m * 2 ^ e + 2 ^ e) with hxle | hxle
  · rw [abs_of_nonpos (sub_nonpos.2 hxle)] at habs
    linarith
  · rw [abs_of_nonneg (sub_nonneg.2 hxle)] at habs
    linarith

/-- A positive number that is rounded to a positive one changes by no more than half of that. -/
theorem abs_sub_le_div_two (h : Nearest F x r) (hr : 0 < r) : |x - r| ≤ r / 2 := by
  obtain ⟨m, e, hm, habs⟩ := h.representable
  rw [abs_of_pos hr] at habs
  subst habs
  have hone : (1 : ℝ) ≤ m := by
    have hm0 : m ≠ 0 := by
      rintro rfl
      simp at hr
    exact_mod_cast Nat.one_le_iff_ne_zero.2 hm0
  calc |x - m * 2 ^ e| ≤ 2 ^ e / 2 := h.abs_sub_le_half hm
    _ ≤ m * 2 ^ e / 2 := by
      have := le_mul_of_one_le_left (zpow_pos two_pos e).le hone
      linarith

end Nearest

/-! ### Normal numbers -/

/-- The least number with all digits of the format. -/
noncomputable def leastNormal (F : Format) : ℝ := 2 ^ (1 - F.exponentBias : ℤ)

theorem leastNormal_pos (F : Format) : 0 < leastNormal F := by
  rw [leastNormal]
  positivity

theorem leastNormal_eq (F : Format) :
    leastNormal F = 2 ^ F.mantissaBitsWithoutImplicit * 2 ^ F.minExponent := by
  rw [leastNormal, minExponent_eq, ← zpow_natCast, ← zpow_add₀ two_ne_zero]
  congr 1
  ring

theorem leastNormal_le_one (hF : 2 ≤ F.exponentBits) : leastNormal F ≤ 1 := by
  have hbias := one_le_exponentBias hF
  exact zpow_le_one_of_nonpos₀ one_le_two (by omega)

theorem representable_leastNormal (F : Format) : Representable F (leastNormal F) :=
  representable_two_pow (by rw [minExponent_eq]; omega)

/-- The significand of a normal number has all digits. -/
theorem Canonical.full_of_leastNormal_le {m : ℕ} {e : ℤ} (h : Canonical F m e)
    (hle : leastNormal F ≤ m * 2 ^ e) : 2 ^ F.mantissaBitsWithoutImplicit ≤ m := by
  refine h.full.elim (fun he => ?_) id
  rw [leastNormal_eq, he] at hle
  exact_mod_cast le_of_mul_le_mul_right hle (zpow_pos two_pos _)

namespace Nearest

variable {x p : ℝ}

/-- A number that is rounded to a normal one has a relative error of no more than half a unit in
    the last digit. -/
theorem mul_abs_sub_le (hp : Nearest F x p) (hnormal : leastNormal F ≤ p) :
    2 ^ F.mantissaBits * |x - p| ≤ p := by
  have hpos := (leastNormal_pos F).trans_le hnormal
  obtain ⟨m, e, hm, habs⟩ := hp.representable
  rw [abs_of_pos hpos] at habs
  subst habs
  have hfull : (2 : ℝ) ^ F.mantissaBitsWithoutImplicit ≤ m := by
    exact_mod_cast hm.full_of_leastNormal_le hnormal
  have hbits : (2 : ℝ) ^ F.mantissaBits = 2 * 2 ^ F.mantissaBitsWithoutImplicit := by
    exact_mod_cast two_pow_mantissaBits F
  calc 2 ^ F.mantissaBits * |x - m * 2 ^ e| ≤ 2 ^ F.mantissaBits * (2 ^ e / 2) :=
        mul_le_mul_of_nonneg_left (hp.abs_sub_le_half hm) (by positivity)
    _ = 2 ^ F.mantissaBitsWithoutImplicit * 2 ^ e := by rw [hbits]; ring
    _ ≤ m * 2 ^ e := mul_le_mul_of_nonneg_right hfull (by positivity)

end Nearest

end Rounding

end HybridGradient
