import HybridGradient.Proofs.HalfUnits

/-!
# Roots of rounded products

The root of a product of two numbers lies between them, and so it does if both operations are
rounded, as long as the rounded product is a normal number. A root has half the relative error of
what it is taken of, so that the rounding of the product moves the root by less than half a unit
of either number, and rounding the root brings it back. Below the normal range a product has too
few digits for that.

* `Rounding.Nearest.sqrt_le`, `Rounding.Nearest.le_sqrt`: a number that is rounded to a normal one,
  and a square that it is no greater or no less than;
* `Rounding.Nearest.between_of_normal`: the bounds of the root of a normal product;
* `Rounding.Nearest.le_of_not_normal`, `Rounding.Nearest.near_of_pos`: what remains of them for
  other products.
-/

namespace HybridGradient

open Float.Model

namespace Rounding.Nearest

variable {F : Format} {x r p h : ℝ}

/-- The error of the product is no more than `m` units of the square, and the next middle is
    further. -/
theorem sqrt_lt_middle (hp : Nearest F x p) (hnormal : leastNormal F ≤ p) {m : ℕ} {e : ℤ}
    (hm : Canonical F m e) (hle : x ≤ m * 2 ^ e * (m * 2 ^ e)) : √p < (m + 1 / 2) * 2 ^ e := by
  rw [Real.sqrt_lt' (by positivity)]
  have herror := hp.mul_abs_sub_le hnormal
  have hneg := neg_abs_le (x - p)
  have hlt : (m : ℝ) + 1 ≤ 2 ^ F.mantissaBits := by exact_mod_cast hm.lt
  have htwo : (2 : ℝ) ≤ 2 ^ F.mantissaBits :=
    le_self_pow₀ one_le_two (by simp [Format.mantissaBits])
  have hm0 : (0 : ℝ) ≤ m := Nat.cast_nonneg m
  have hw : (0 : ℝ) < 2 ^ e * 2 ^ e := by positivity
  generalize (2 : ℝ) ^ F.mantissaBits = N at *
  have hbound : (N - 1) * p ≤ (N - 1) * ((m * m + m) * (2 ^ e * 2 ^ e)) := by
    have hsquare : (m : ℝ) * m ≤ (N - 1) * m := mul_le_mul_of_nonneg_right (by linarith) hm0
    calc (N - 1) * p ≤ N * x := by nlinarith
      _ ≤ N * (m * m * (2 ^ e * 2 ^ e)) := by nlinarith
      _ ≤ (N - 1) * ((m * m + m) * (2 ^ e * 2 ^ e)) := by nlinarith
  have hple := le_of_mul_le_mul_left hbound (by linarith)
  nlinarith

/-- The same on the other side, where the middle to the number before is less far away. -/
theorem middle_lt_sqrt (hp : Nearest F x p) (hnormal : leastNormal F ≤ p) {k : ℕ} {e : ℤ}
    (hk : Canonical F (k + 1) e) (hle : ((k : ℝ) + 1) * 2 ^ e * ((k + 1) * 2 ^ e) ≤ x) :
    ((k : ℝ) + 1 / 2) * 2 ^ e < √p := by
  refine Real.lt_sqrt_of_sq_lt ?_
  have herror := hp.mul_abs_sub_le hnormal
  have habs := le_abs_self (x - p)
  have hlt : (k : ℝ) + 2 ≤ 2 ^ F.mantissaBits := by exact_mod_cast hk.lt
  have hk0 : (0 : ℝ) ≤ k := Nat.cast_nonneg k
  have hw : (0 : ℝ) < 2 ^ e * 2 ^ e := by positivity
  generalize (2 : ℝ) ^ F.mantissaBits = N at *
  refine lt_of_mul_lt_mul_left ?_ (by linarith : 0 ≤ N + 1)
  have hsquare : (N + 1) * ((k + 1 / 2) * (k + 1 / 2)) < N * ((k + 1) * (k + 1)) := by nlinarith
  calc (N + 1) * ((k + 1 / 2) * 2 ^ e) ^ 2
      = (N + 1) * ((k + 1 / 2) * (k + 1 / 2)) * (2 ^ e * 2 ^ e) := by ring
    _ < N * ((k + 1) * (k + 1)) * (2 ^ e * 2 ^ e) := mul_lt_mul_of_pos_right hsquare hw
    _ ≤ N * x := by nlinarith
    _ ≤ (N + 1) * p := by nlinarith

/-- A number whose square is rounded down to a normal number is neither small nor a power of two, so
    that there is another one with its exponent before it. -/
theorem exists_canonical_pred (hF : 2 ≤ F.exponentBits) (hp : Nearest F x p)
    (hnormal : leastNormal F ≤ p) (hh : Representable F h) (h0 : 0 ≤ h) (hle : h * h ≤ x)
    (hlt : p < h * h) :
    ∃ (k : ℕ) (e : ℤ), Canonical F (k + 1) e ∧ Canonical F k e ∧ h = ((k : ℝ) + 1) * 2 ^ e := by
  have hnormal' : leastNormal F ≤ h := by
    have hone := leastNormal_le_one hF
    by_contra! hsmall
    nlinarith
  obtain ⟨m, e, hm, habs⟩ := hh
  rw [abs_of_nonneg h0] at habs
  subst habs
  have hfull := hm.full_of_leastNormal_le hnormal'
  have hne : m ≠ 2 ^ F.mantissaBitsWithoutImplicit := by
    intro heq
    have hpower : (m : ℝ) * 2 ^ e * (m * 2 ^ e) =
        2 ^ (2 * (F.mantissaBitsWithoutImplicit + e)) := by
      rw [heq, Nat.cast_pow, Nat.cast_two, ← zpow_natCast, two_mul, zpow_add₀ two_ne_zero,
        zpow_add₀ two_ne_zero]
    rw [hpower] at hlt hle
    have hexponent := (zpow_lt_zpow_iff_right₀ one_lt_two).1 (hnormal.trans_lt hlt)
    have hmin := minExponent_eq F
    exact absurd (hp.le (representable_two_pow (by omega)) hle) hlt.not_ge
  have hpos := Nat.two_pow_pos F.mantissaBitsWithoutImplicit
  obtain ⟨k, rfl⟩ : ∃ k, m = k + 1 := Nat.exists_eq_add_one.2 (hpos.trans_le hfull)
  exact ⟨k, e, hm, hm.pred (by omega), by rw [Nat.cast_succ]⟩

/-- The root of a normal number that is rounded is rounded to no more than a number of the format,
    if the square of that is no less than what was rounded. -/
theorem sqrt_le (hp : Nearest F x p) (hnormal : leastNormal F ≤ p) (hr : Nearest F √p r)
    (hh : Representable F h) (h0 : 0 ≤ h) (hle : x ≤ h * h) : r ≤ h := by
  obtain ⟨m, e, hm, habs⟩ := hh
  rw [abs_of_nonneg h0] at habs
  subst habs
  exact hr.le_of_lt_middle hm (hp.sqrt_lt_middle hnormal hm hle)

/-- The root of a normal number that is rounded is rounded to no less than a number of the format,
    if the square of that is no greater than what was rounded. -/
theorem le_sqrt (hF : 2 ≤ F.exponentBits) (hp : Nearest F x p) (hnormal : leastNormal F ≤ p)
    (hr : Nearest F √p r) (hh : Representable F h) (h0 : 0 ≤ h) (hle : h * h ≤ x) : h ≤ r := by
  rcases le_or_gt (h * h) p with hsquare | hsquare
  · exact hr.le hh (Real.le_sqrt_of_sq_le ((sq h).trans_le hsquare))
  · obtain ⟨k, e, hk, hpred, rfl⟩ := hp.exists_canonical_pred hF hnormal hh h0 hle hsquare
    exact hr.le_of_middle_lt hpred (hp.middle_lt_sqrt hnormal hk hle)

/-- The root of any positive number that is rounded is rounded to no more than three times a number
    of which the square is no less than what was rounded, and to no less than a third of one of
    which the square is no greater. -/
theorem sqrt_near (hp : Nearest F x p) (hpos : 0 < p) (hr : Nearest F √p r) (hr0 : 0 < r)
    (h0 : 0 ≤ h) : (x ≤ h * h → r ≤ 3 * h) ∧ (h * h ≤ x → h ≤ 3 * r) := by
  have herror := abs_le.1 (hp.abs_sub_le_div_two hpos)
  have herror' := abs_le.1 (hr.abs_sub_le_div_two hr0)
  have hsq := Real.mul_self_sqrt hpos.le
  have hroot := Real.sqrt_nonneg p
  refine ⟨fun hle => ?_, fun hle => ?_⟩
  · by_contra! hlt
    have hbound : 3 / 2 * h < √p := by linarith
    nlinarith
  · by_contra! hlt
    have hbound : √p < h / 2 := by linarith
    nlinarith

/-! ### Products of two numbers -/

section

variable {a b l : ℝ} (hp : Nearest F (a * b) p) (hr : Nearest F √p r) (ha : 0 < a) (hab : a ≤ b)

include hp hr ha hab

/-- The root of a normal product lies between the two numbers. -/
theorem between_of_normal (hF : 2 ≤ F.exponentBits) (hnormal : leastNormal F ≤ p)
    (ha' : Representable F a) (hb' : Representable F b) : a ≤ r ∧ r ≤ b := by
  have hb := ha.le.trans hab
  exact ⟨hp.le_sqrt hF hnormal hr ha' ha.le (mul_le_mul_of_nonneg_left hab ha.le),
    hp.sqrt_le hnormal hr hb' hb (mul_le_mul_of_nonneg_right hab hb)⟩

/-- If the product is not normal, its root and the lesser number are no greater than any number of
    the format that is no less than the root of the least normal number. -/
theorem le_of_not_normal (hlt : p < leastNormal F) (hl : Representable F l)
    (hroot : √(leastNormal F) ≤ l) : a ≤ l ∧ r ≤ l := by
  have hl0 := (Real.sqrt_nonneg _).trans hroot
  refine ⟨?_, hr.ge hl ((Real.sqrt_le_sqrt hlt.le).trans hroot)⟩
  by_contra! hla
  refine hlt.not_ge (hp.le (representable_leastNormal F) ?_)
  calc leastNormal F = √(leastNormal F) * √(leastNormal F) :=
        (Real.mul_self_sqrt (leastNormal_pos F).le).symm
    _ ≤ l * l := mul_self_le_mul_self (Real.sqrt_nonneg _) hroot
    _ ≤ a * b := mul_le_mul hla.le (hla.le.trans hab) hl0 ha.le

/-- The root of any positive product is no less than a third of the lesser number and no greater
    than three times the other one. -/
theorem near_of_pos (hpos : 0 < p) (hr0 : 0 < r) : a ≤ 3 * r ∧ r ≤ 3 * b := by
  have hb := ha.le.trans hab
  exact ⟨(hp.sqrt_near hpos hr hr0 ha.le).2 (mul_le_mul_of_nonneg_left hab ha.le),
    (hp.sqrt_near hpos hr hr0 hb).1 (mul_le_mul_of_nonneg_right hab hb)⟩

end

end Rounding.Nearest

end HybridGradient
