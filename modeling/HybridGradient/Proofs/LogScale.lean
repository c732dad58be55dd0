import HybridGradient.Proofs.BinaryScalar
import HybridGradient.Proofs.HalfUnits
import HybridGradient.Proofs.RealMatrix

/-!
# Logarithms of binary scalars

In the normal range of a format, an operation on positive numbers is exact up to a small
relative error. On the scale of binary logarithms products are sums, and the error of an
operation adds no more than the same small number to each result.

* `Rounding.roundoff`: by how much rounding changes a logarithm;
* `Binary.lg`: the logarithm of a positive scalar, with those of products, quotients and roots
  (`Binary.lg_mul`, `Binary.lg_abs_div`, `Binary.lg_sqrt`), all within the range `Binary.lgMax`.
-/

namespace HybridGradient

open Extended Float.Model Real

namespace Rounding

variable {F : Format}

/-- By how much rounding changes the binary logarithm of a number at most. -/
noncomputable def roundoff (F : Format) : ℝ := 2 / 2 ^ F.mantissaBitsWithoutImplicit

theorem roundoff_pos (F : Format) : 0 < roundoff F := by
  rw [roundoff]
  positivity

/-- A normal number is rounded with a small relative error. -/
theorem Nearest.abs_sub_le_div {x r : ℝ} (h : Nearest F x r) (hx : leastNormal F ≤ x) :
    |x - r| ≤ x / 2 ^ F.mantissaBitsWithoutImplicit := by
  have herror := h.mul_abs_sub_le (h.le (representable_leastNormal F) hx)
  have hneg := neg_abs_le (x - r)
  have hbits : (2 : ℝ) ^ F.mantissaBits = 2 * 2 ^ F.mantissaBitsWithoutImplicit := by
    exact_mod_cast two_pow_mantissaBits F
  have hone : (1 : ℝ) ≤ 2 ^ F.mantissaBitsWithoutImplicit := one_le_pow₀ one_le_two
  rw [hbits] at herror
  rw [le_div_iff₀ (by positivity)]
  nlinarith [abs_nonneg (x - r)]

/-- A small relative error is a small error of the logarithm. -/
theorem abs_logb_sub_le {x r : ℝ} {n : ℕ} (hn : 0 < n) (hx : 0 < x)
    (h : |x - r| ≤ x / (2 * n)) : 0 < r ∧ |logb 2 r - logb 2 x| ≤ 1 / n := by
  have hn' : (1 : ℝ) ≤ n := by exact_mod_cast hn
  set d : ℝ := 1 / (2 * n) with hd
  have hdn : n * d = 1 / 2 := by
    rw [hd]
    field_simp
  have hdpos : 0 < d := by positivity
  have hdle : d ≤ 1 / 2 := by nlinarith
  rw [div_eq_mul_one_div, ← hd, abs_le] at h
  have hr : 0 < r := by nlinarith
  have hone : 0 < 1 - d := by linarith
  -- One less the error, to the power of `n`, is more than one half.
  have hlog : -(1 / n : ℝ) ≤ logb 2 (1 - d) := by
    have hpow : (1 : ℝ) / 2 ≤ (1 - d) ^ n := by
      have hbernoulli := one_add_mul_le_pow (a := -d) (by linarith) n
      rw [← sub_eq_add_neg] at hbernoulli
      linarith
    have hmono := logb_le_logb_of_le one_lt_two (by norm_num) hpow
    rw [logb_pow, one_div, logb_inv, logb_self_eq_one one_lt_two] at hmono
    rw [neg_le_iff_add_nonneg, ← mul_le_mul_iff_right₀ (lt_of_lt_of_le one_pos hn')]
    rw [mul_zero, mul_add, mul_one_div_cancel (by positivity)]
    linarith
  refine ⟨hr, abs_le.2 ⟨?_, ?_⟩⟩
  · have hmono := logb_le_logb_of_le one_lt_two (mul_pos hx hone)
      (show x * (1 - d) ≤ r by linarith)
    rw [logb_mul hx.ne' hone.ne'] at hmono
    linarith
  · have hmono := logb_le_logb_of_le one_lt_two (mul_pos hr hone)
      (show r * (1 - d) ≤ x by nlinarith)
    rw [logb_mul hr.ne' hone.ne'] at hmono
    linarith

theorem logb_two_zpow (k : ℤ) : logb 2 ((2 : ℝ) ^ k) = k := by
  rw [← rpow_intCast, logb_rpow two_pos (by norm_num)]

/-- In the normal range, a positive number is rounded to a positive number with almost the same
    logarithm. -/
theorem Rounds.exists_logb (hF : 2 ≤ F.exponentBits) {x : ℝ} {v : Extended} (h : Rounds F x v)
    (hx : 0 < x) (hl : |logb 2 x| ≤ F.exponentBias - 1) :
    ∃ r, v = .real r ∧ 0 < r ∧ |logb 2 r - logb 2 x| ≤ roundoff F := by
  have hbias := one_le_exponentBias hF
  rw [abs_le] at hl
  have hlower : leastNormal F ≤ x := by
    rw [leastNormal, ← logb_le_logb one_lt_two (by positivity) hx, logb_two_zpow]
    push_cast
    linarith
  have hupper : x ≤ (2 : ℝ) ^ (F.exponentBias : ℤ) := by
    rw [← logb_le_logb one_lt_two hx (by positivity), logb_two_zpow]
    push_cast
    linarith
  have hpower : Representable F ((2 : ℝ) ^ (F.exponentBias : ℤ)) := by
    refine representable_two_pow ?_
    rw [minExponent_eq]
    omega
  have hlt : (2 : ℝ) ^ (F.exponentBias : ℤ) < overflow F := by
    rw [overflow, ← zpow_natCast]
    exact zpow_lt_zpow_right₀ one_lt_two (by omega)
  cases h with
  | top h hr => exact absurd (h.ge hpower hupper) (not_le.2 (hlt.trans_le hr))
  | bot h hr => exact absurd (h.nonneg hx.le) (by linarith [overflow_pos F])
  | real h hr =>
    rename_i r
    obtain ⟨n, hn⟩ : ∃ n, F.mantissaBitsWithoutImplicit = n + 1 := Nat.exists_eq_add_one.2 F.hm
    have herror := h.abs_sub_le_div hlower
    have hdouble : (2 : ℝ) ^ F.mantissaBitsWithoutImplicit = 2 * (2 ^ n : ℕ) := by
      rw [hn, pow_succ']
      push_cast
      rfl
    rw [hdouble] at herror
    obtain ⟨hpos, hlog⟩ := abs_logb_sub_le (Nat.two_pow_pos n) hx herror
    refine ⟨r, rfl, hpos, hlog.trans (le_of_eq ?_)⟩
    rw [roundoff, hdouble, ← div_div, div_self (two_ne_zero (α := ℝ))]

end Rounding

/-! ### Positive scalars -/

open Rounding

namespace Binary

variable {α : Type} [Binary α]

/-- The binary logarithm of a positive scalar. -/
noncomputable def lg (x : α) : ℝ := logb 2 (value x).toReal

theorem lg_eq {x : α} {a : ℝ} (h : value x = .real a) : lg x = logb 2 a := by
  rw [lg, h, toReal_real]

variable [Scalar α] [LawfulBinary α]

variable (α) in
/-- The greatest magnitude of a logarithm in the normal range. -/
noncomputable def lgMax : ℝ := (format α).exponentBias - 1

variable (α) in
/-- By how much an operation changes a logarithm. -/
noncomputable def lgError : ℝ := roundoff (format α)

/-- The errors of as many operations as there are exponents do not add up to much. -/
theorem exponentBias_mul_lgError : (format α).exponentBias * lgError α ≤ 1 / 1000 := by
  have hcapacity := two_pow_exponentBits (format α)
  have hpow : (2 : ℝ) ^ ((format α).exponentBits + 15) ≤
      2 ^ (format α).mantissaBitsWithoutImplicit :=
    pow_le_pow_right₀ one_le_two LawfulBinary.mantissaBits_le
  have hbias : ((format α).exponentBias : ℝ) * 2 ≤ 2 ^ (format α).exponentBits := by
    exact_mod_cast (by omega : (format α).exponentBias * 2 ≤ 2 ^ (format α).exponentBits)
  rw [pow_add] at hpow
  rw [lgError, roundoff, mul_div_assoc', div_le_div_iff₀ (by positivity) (by norm_num)]
  nlinarith

theorem lg_one : lg (1 : α) = 0 := by
  rw [lg_eq value_one, logb_one]

/-- The logarithm of what a number in the normal range is rounded to. -/
theorem lg_of_rounds {z : α} {x : ℝ} (h : Rounds (format α) x (value z)) (hx : 0 < x)
    (hl : |logb 2 x| ≤ lgMax α) : IsPositive z ∧ |lg z - logb 2 x| ≤ lgError α := by
  obtain ⟨r, hr, hpos, herror⟩ := h.exists_logb two_le_exponentBits hx hl
  refine ⟨⟨r, hr, hpos⟩, ?_⟩
  rwa [lg_eq hr]

variable {x y : α}

/-- A scalar greater than zero and up to one has a logarithm that is not positive. -/
theorem lg_nonpos (hpos : 0 < x) (hone : x ≤ 1) : IsPositive x ∧ lg x ≤ 0 := by
  rw [le_iff, value_one] at hone
  rcases pos_iff.1 hpos with ⟨a, ha, hapos⟩ | htop
  · rw [ha, real_le_real] at hone
    rw [lg_eq ha]
    exact ⟨⟨a, ha, hapos⟩, logb_nonpos one_lt_two hapos.le hone⟩
  · rw [htop] at hone
    exact absurd hone (not_top_le_real 1)

theorem lg_mul (hx : IsPositive x) (hy : IsPositive y) (h : |lg x + lg y| ≤ lgMax α) :
    IsPositive (x * y) ∧ |lg (x * y) - (lg x + lg y)| ≤ lgError α := by
  obtain ⟨a, ha, hapos⟩ := hx
  obtain ⟨b, hb, hbpos⟩ := hy
  rw [lg_eq ha, lg_eq hb, ← logb_mul hapos.ne' hbpos.ne'] at h ⊢
  exact lg_of_rounds (rounds_mul ha hb) (mul_pos hapos hbpos) h

/-- The logarithm of a product of bounded factors. -/
theorem lg_mul_of_le {X Y : ℝ} (hx : IsPositive x) (hX : |lg x| ≤ X) (hy : IsPositive y)
    (hY : |lg y| ≤ Y) (h : X + Y ≤ lgMax α) :
    IsPositive (x * y) ∧ |lg (x * y) - (lg x + lg y)| ≤ lgError α ∧
      |lg (x * y)| ≤ X + Y + lgError α := by
  have hsum : |lg x + lg y| ≤ X + Y := (abs_add_le _ _).trans (add_le_add hX hY)
  obtain ⟨hpos, herror⟩ := lg_mul hx hy (hsum.trans h)
  refine ⟨hpos, herror, ?_⟩
  calc |lg (x * y)| = |(lg (x * y) - (lg x + lg y)) + (lg x + lg y)| := by rw [sub_add_cancel]
    _ ≤ lgError α + (X + Y) := (abs_add_le _ _).trans (add_le_add herror hsum)
    _ = X + Y + lgError α := add_comm _ _

theorem lg_sqrt (hx : IsPositive x) (h : |lg x / 2| ≤ lgMax α) :
    IsPositive (Scalar.sqrt x) ∧ |lg (Scalar.sqrt x) - lg x / 2| ≤ lgError α := by
  obtain ⟨a, ha, hapos⟩ := hx
  have hroot : logb 2 √a = logb 2 a / 2 := by
    rw [sqrt_eq_rpow, logb_rpow_eq_mul_logb_of_pos hapos]
    ring
  rw [lg_eq ha, ← hroot] at h ⊢
  exact lg_of_rounds (rounds_sqrt ha hapos) (sqrt_pos.2 hapos) h

/-- The logarithm of the magnitude of a quotient. -/
theorem lg_abs_div {a : ℝ} (hx : value x = .real a) (ha : a ≠ 0) (hy : IsPositive y)
    (h : |lg x - lg y| ≤ lgMax α) :
    IsPositive (Scalar.abs (x / y)) ∧ |lg (Scalar.abs (x / y)) - (lg x - lg y)| ≤ lgError α := by
  obtain ⟨b, hb, hbpos⟩ := hy
  have hrounds := (rounds_div hx hb hbpos.ne').abs
  rw [← value_abs] at hrounds
  rw [lg_eq hx, lg_eq hb, ← logb_div ha hbpos.ne', ← logb_abs] at h ⊢
  exact lg_of_rounds hrounds (abs_pos.2 (div_ne_zero ha hbpos.ne')) h

/-- The magnitude of a quotient of zero is not positive. -/
theorem not_pos_abs_div (hx : value x = .real 0) (y : α) : ¬ 0 < Scalar.abs (x / y) := by
  rw [lt_iff, value_zero, value_abs]
  rcases value_zero_div hx y with h | h
  · rw [h, Extended.abs, abs_zero]
    exact not_lt_self _
  · rw [h]
    exact not_lt_undefined _

theorem lg_greater (hx : IsPositive x) (hy : IsPositive y) :
    IsPositive (Scalar.greater x y) ∧ lg (Scalar.greater x y) = max (lg x) (lg y) := by
  obtain ⟨a, ha, hapos⟩ := hx
  obtain ⟨b, hb, hbpos⟩ := hy
  have hvalue := value_greater ha hb
  refine ⟨⟨_, hvalue, lt_max_of_lt_left hapos⟩, ?_⟩
  rw [lg_eq hvalue, lg_eq ha, lg_eq hb]
  exact (strictMonoOn_logb one_lt_two).monotoneOn.map_max hapos hbpos

theorem lg_lesser (hx : IsPositive x) (hy : IsPositive y) :
    IsPositive (Scalar.lesser x y) ∧ lg (Scalar.lesser x y) = min (lg x) (lg y) := by
  obtain ⟨a, ha, hapos⟩ := hx
  obtain ⟨b, hb, hbpos⟩ := hy
  have hvalue := value_lesser ha hb
  refine ⟨⟨_, hvalue, lt_min hapos hbpos⟩, ?_⟩
  rw [lg_eq hvalue, lg_eq ha, lg_eq hb]
  exact (strictMonoOn_logb one_lt_two).monotoneOn.map_min hapos hbpos

end Binary

end HybridGradient
