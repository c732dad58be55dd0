import HybridGradient.Proofs.Extended
import HybridGradient.Proofs.Words
import Mathlib

/-!
# The texts of decimals

How wide a number is when it is written depends on where its first digit stands and on whether
rounding carries into one more. A carry never makes a number in scientific form wider, since its
digits are then those of a power of ten, of which the last zero is taken away: only its exponent
grows.

* `leadingExponent_spec`: the exponent of the leading digit;
* `roundQuotient_le`: rounding does not leave what is bounded by natural numbers;
* `Decimal.digits_ofFraction_lt`, `Decimal.exponent_ofFraction`: the digits of a rounded fraction,
  and its exponent;
* `Decimal.length_placesText_le`, `Decimal.length_scientificText_le`: the widths of both forms;
* `Text.isWord_unpackedText`: every number is written without a blank.
-/

namespace HybridGradient

open Text

/-! ### Leading digits -/

theorem digitCount_eq (n : ℕ) : digitCount n = Nat.log 10 n + 1 := by
  fun_induction digitCount n with
  | case1 n h => rw [Nat.log_of_lt h]
  | case2 n h ih => rw [ih, Nat.log_of_one_lt_of_le (by decide) (not_lt.1 h)]

variable {num den : ℕ}

/-- A fraction of at least one has a digit before the point for each digit of its quotient. -/
theorem leadingExponent_of_le (h : den ≤ num) :
    leadingExponent num den = Nat.log 10 (num / den) := by
  rw [leadingExponent, if_pos h, digitCount_eq, Nat.cast_succ, add_sub_cancel_right]

theorem leadingExponent_of_lt (h : num < den) :
    leadingExponent num den = -((Nat.log 10 ((den - 1) / num) + 1 : ℕ) : ℤ) := by
  rw [leadingExponent, if_neg (not_le.2 h), digitCount_eq]

/-- A fraction is at least the power of ten that its leading digit is worth, and less than the
    next one. -/
theorem leadingExponent_spec (hnum : 0 < num) (hden : 0 < den) :
    (10 : ℝ) ^ leadingExponent num den ≤ num / den ∧
      (num : ℝ) / den < 10 ^ (leadingExponent num den + 1) := by
  rw [le_div_iff₀ (Nat.cast_pos.2 hden), div_lt_iff₀ (Nat.cast_pos.2 hden)]
  rcases le_or_gt den num with hle | hlt
  · rw [leadingExponent_of_le hle]
    set k := Nat.log 10 (num / den) with hk
    have hlow : 10 ^ k * den ≤ num := by
      refine le_trans (Nat.mul_le_mul_right den ?_) (Nat.div_mul_le_self num den)
      exact Nat.pow_log_le_self 10 (Nat.div_pos hle hden).ne'
    have hhigh : num < 10 ^ (k + 1) * den :=
      (Nat.div_lt_iff_lt_mul hden).1 (Nat.lt_pow_succ_log_self (by decide) _)
    constructor
    · rw [zpow_natCast]
      exact_mod_cast hlow
    · rw [← Nat.cast_succ, zpow_natCast]
      exact_mod_cast hhigh
  · rw [leadingExponent_of_lt hlt]
    set k := Nat.log 10 ((den - 1) / num) with hk
    have hlow : den ≤ 10 ^ (k + 1) * num := by
      have hlast : den - 1 < 10 ^ (k + 1) * num :=
        (Nat.div_lt_iff_lt_mul hnum).1 (Nat.lt_pow_succ_log_self (by decide) _)
      omega
    have hhigh : 10 ^ k * num < den := by
      have hquotient : 0 < (den - 1) / num := Nat.div_pos (by omega) hnum
      have hfirst : 10 ^ k * num ≤ den - 1 :=
        le_trans (Nat.mul_le_mul_right num (Nat.pow_log_le_self 10 hquotient.ne'))
          (Nat.div_mul_le_self _ _)
      omega
    constructor
    · rw [zpow_neg, zpow_natCast, inv_mul_le_iff₀ (by positivity)]
      exact_mod_cast hlow
    · have hexp : -((k + 1 : ℕ) : ℤ) + 1 = -(k : ℤ) := by omega
      rw [hexp, zpow_neg, zpow_natCast, lt_inv_mul_iff₀ (by positivity)]
      exact_mod_cast hhigh

theorem le_leadingExponent (hnum : 0 < num) (hden : 0 < den) {a : ℤ}
    (h : (10 : ℝ) ^ a ≤ num / den) : a ≤ leadingExponent num den := by
  have hlt := h.trans_lt (leadingExponent_spec hnum hden).2
  rw [zpow_lt_zpow_iff_right₀ (by norm_num)] at hlt
  exact Int.lt_add_one_iff.1 hlt

theorem leadingExponent_lt (hnum : 0 < num) (hden : 0 < den) {b : ℤ}
    (h : (num : ℝ) / den < 10 ^ b) : leadingExponent num den < b := by
  have hlt := (leadingExponent_spec hnum hden).1.trans_lt h
  rwa [zpow_lt_zpow_iff_right₀ (by norm_num)] at hlt

/-! ### Rounding -/

/-- A quotient that is bounded by a natural number is still bounded by it when it is rounded. -/
theorem roundQuotient_le {bound : ℕ} (hden : 0 < den) (h : num ≤ bound * den) :
    roundQuotient num den ≤ bound := by
  have hmod : den * (num / den) + num % den = num := Nat.div_add_mod num den
  have hquotient : num / den ≤ bound := Nat.div_le_of_le_mul (by rwa [mul_comm])
  rw [roundQuotient]
  rcases hquotient.lt_or_eq with hlt | heq
  · -- Rounding adds one at most.
    split
    · exact hquotient
    · split
      · exact hlt
      · omega
  · -- The bound itself leaves no remainder.
    have hzero : num % den = 0 := by
      rw [heq, mul_comm] at hmod
      omega
    simp only [hzero]
    rw [if_pos (by omega)]
    exact hquotient

/-- A power as the quotient of one power and another, of which one is trivial. -/
theorem zpow_eq_div {b : ℝ} (hb : b ≠ 0) (k : ℤ) : b ^ k = b ^ k.toNat / b ^ (-k).toNat := by
  rw [← zpow_natCast, ← zpow_natCast, ← zpow_sub₀ hb]
  congr 1
  omega

theorem binaryNum_pos {m : ℕ} (hm : 0 < m) (e : ℤ) : 0 < binaryNum m e := by
  rw [binaryNum, Nat.shiftLeft_eq]
  exact Nat.mul_pos hm (Nat.two_pow_pos _)

/-- The value of a number that is given by a binary significand and exponent. -/
theorem binary_value (m : ℕ) (e : ℤ) :
    0 < binaryDen e ∧ (binaryNum m e : ℝ) / binaryDen e = m * 2 ^ e := by
  constructor
  · rw [binaryDen, Nat.shiftLeft_eq, one_mul]
    exact Nat.two_pow_pos _
  · rw [binaryNum, binaryDen, Nat.shiftLeft_eq, Nat.shiftLeft_eq, one_mul,
      zpow_eq_div two_ne_zero, ← mul_div_assoc]
    push_cast
    rfl

/-- The value of a fraction that is shifted by a power of ten. -/
theorem shiftDecimal_value (num : ℕ) (hden : 0 < den) (k : ℤ) :
    0 < (shiftDecimal num den k).2 ∧
      ((shiftDecimal num den k).1 : ℝ) / (shiftDecimal num den k).2 = num / den * 10 ^ k := by
  constructor
  · exact Nat.mul_pos hden (Nat.pow_pos (by decide))
  · simp only [shiftDecimal, Nat.pow_eq]
    rw [zpow_eq_div (by norm_num), div_mul_div_comm]
    push_cast
    rfl

namespace Decimal

variable (places : ℕ)

theorem digits_onGrid_lt {n : ℕ} (hn : n ≤ 10 ^ (places + 1)) (e : ℤ) :
    (onGrid n places e).digits < 10 ^ (places + 1) := by
  rw [onGrid, Nat.pow_eq]
  split
  · -- The carry leaves the leading digit of a power of ten.
    have hpos : 0 < n := lt_of_lt_of_le (Nat.pow_pos (by decide : 0 < 10)) ‹_›
    exact (Nat.div_lt_self hpos (by decide)).trans_le hn
  · exact not_le.1 ‹_›

theorem exponent_onGrid (n : ℕ) (e : ℤ) :
    (onGrid n places e).exponent = e ∨ (onGrid n places e).exponent = e + 1 := by
  rw [onGrid]
  split
  · exact .inr rfl
  · exact .inl rfl

/-- A rounded fraction has one digit and as many more as there are places, even where rounding
    carries into another one. -/
theorem digits_ofFraction_lt (hnum : 0 < num) (hden : 0 < den) :
    (ofFraction num den places).digits < 10 ^ (places + 1) := by
  obtain ⟨hpos, hvalue⟩ := shiftDecimal_value num hden (places - leadingExponent num den)
  refine digits_onGrid_lt places (roundQuotient_le hpos ?_) _
  have hlt : (num : ℝ) / den * 10 ^ ((places : ℤ) - leadingExponent num den) <
      10 ^ (places + 1) := by
    calc (num : ℝ) / den * 10 ^ ((places : ℤ) - leadingExponent num den)
        < 10 ^ (leadingExponent num den + 1) * 10 ^ ((places : ℤ) - leadingExponent num den) :=
          mul_lt_mul_of_pos_right (leadingExponent_spec hnum hden).2 (by positivity)
      _ = 10 ^ (places + 1) := by
          rw [← zpow_add₀ (by norm_num), ← zpow_natCast]
          congr 1
          push_cast
          ring
  rw [← hvalue, div_lt_iff₀ (Nat.cast_pos.2 hpos)] at hlt
  exact_mod_cast hlt.le

/-- The exponent of a rounded fraction is that of its leading digit, or one more. -/
theorem exponent_ofFraction (num den places : ℕ) :
    (ofFraction num den places).exponent = leadingExponent num den ∨
      (ofFraction num den places).exponent = leadingExponent num den + 1 :=
  exponent_onGrid _ _ _

/-! ### Widths -/

theorem length_digitsOf_le {n k : ℕ} (hk : 0 < k) (h : n < 10 ^ k) : (digitsOf n).length ≤ k :=
  (Nat.length_toDigits_le_iff (by decide) hk).2 h

theorem length_pointed_le (ds : List Char) : (pointed ds).length ≤ ds.length + 1 := by
  fun_cases pointed ds with
  | case1 d d' ds => exact Nat.le_refl _
  | case2 ds => exact Nat.le_succ _

/-- A negative exponent takes its sign with it. -/
theorem length_exponentText_le {e : ℤ} {k : ℕ} (hk : 0 < k) (hneg : -(10 ^ k : ℕ) < e)
    (hpos : e < (10 ^ (k + 1) : ℕ)) : (exponentText e).length ≤ k + 2 := by
  rw [exponentText]
  split
  · have hdigits := length_digitsOf_le hk (n := e.natAbs) (by omega)
    simpa using hdigits
  · have hdigits := length_digitsOf_le k.succ_pos (n := e.natAbs) (by omega)
    simpa using hdigits

/-- The width of a number in scientific form, whose exponent has up to `k` digits if it is negative
    and up to one more if it is not. -/
theorem length_scientificText_le {d : Decimal} {k : ℕ} (hdigits : d.digits < 10 ^ (places + 1))
    (hk : 0 < k) (hneg : -(10 ^ k : ℕ) < d.exponent) (hpos : d.exponent < (10 ^ (k + 1) : ℕ)) :
    d.scientificText.length ≤ places + k + 4 := by
  have h₁ := length_digitsOf_le places.succ_pos hdigits
  have h₂ := length_pointed_le (digitsOf d.digits)
  have h₃ := length_exponentText_le hk hneg hpos
  rw [scientificText, List.length_append]
  omega

/-- The width of a number with a fixed number of places. -/
theorem length_placesText_le {n k : ℕ} (hn : n < 10 ^ k) (hk : places < k) :
    (placesText n places).length ≤ k + 1 := by
  have hdigits := length_digitsOf_le (by omega) hn
  simp only [placesText, List.length_append, List.length_cons, List.length_take, List.length_drop,
    List.length_replicate]
  omega

end Decimal

open Float.Model in
theorem length_signText_le (s : UnpackedFloat.Sign) : (signText s).length ≤ 1 := by
  cases s with
  | positive => exact Nat.zero_le 1
  | negative => exact Nat.le_refl 1

/-! ### Numbers as words -/

namespace Text

theorem Visible.append {cs ds : List Char} (hcs : Visible cs) (hds : Visible ds) :
    Visible (cs ++ ds) := List.forall_mem_append.2 ⟨hcs, hds⟩

theorem Visible.cons {c : Char} {cs : List Char} (hc : isBlank c = false) (hcs : Visible cs) :
    Visible (c :: cs) := List.forall_mem_cons.2 ⟨hc, hcs⟩

theorem isWord_ofList {cs : List Char} (hne : cs ≠ []) (h : Visible cs) :
    IsWord (String.ofList cs) := by
  constructor
  · simpa using hne
  · rwa [String.toList_ofList]

theorem isBlank_of_isDigit {c : Char} (h : c.isDigit = true) : isBlank c = false := by
  have hrange : 48 ≤ c.toNat ∧ c.toNat ≤ 57 := by
    simpa [Char.isDigit, UInt32.le_iff_toNat_le] using h
  simp [isBlank]
  omega

end Text

namespace Decimal

theorem visible_digitsOf (n : ℕ) : Visible (digitsOf n) := fun _ hc =>
  isBlank_of_isDigit (Nat.isDigit_of_mem_toDigits (by decide) (le_refl 10) hc)

theorem visible_pointed {ds : List Char} (h : Visible ds) : Visible (pointed ds) := by
  fun_cases pointed ds with
  | case1 d d' ds =>
    obtain ⟨hd, hds⟩ := List.forall_mem_cons.1 h
    exact .cons hd (.cons (by decide) hds)
  | case2 ds => exact h

theorem visible_exponentText (e : ℤ) : Visible (exponentText e) := by
  rw [exponentText]
  split
  · exact .cons (by decide) (.cons (by decide) (visible_digitsOf _))
  · exact .cons (by decide) (visible_digitsOf _)

theorem visible_scientificText (d : Decimal) : Visible d.scientificText :=
  (visible_pointed (visible_digitsOf _)).append (visible_exponentText _)

theorem visible_placesText (n places : ℕ) : Visible (placesText n places) := by
  have hdigits : Visible (List.replicate (places + 1 - (digitsOf n).length) '0' ++ digitsOf n) := by
    refine .append (fun c hc => ?_) (visible_digitsOf n)
    rw [List.eq_of_mem_replicate hc]
    decide
  exact .append (fun c hc => hdigits c (List.mem_of_mem_take hc))
    (.cons (by decide) fun c hc => hdigits c (List.mem_of_mem_drop hc))

end Decimal

open Float.Model in
/-- Whatever is written for zero and for finite numbers, every number is one word. -/
theorem Text.isWord_unpackedText {zero : List Char} {finite : ℕ → ℤ → List Char}
    (hzero : Visible zero ∧ zero ≠ []) (hfinite : ∀ m e, Visible (finite m e) ∧ finite m e ≠ [])
    (u : UnpackedFloat) : IsWord (unpackedText zero finite u) := by
  have hsign (s : UnpackedFloat.Sign) : Visible (signText s) := by
    cases s with
    | positive => decide
    | negative => decide
  cases u with
  | notANumber =>
    rw [unpackedText]
    exact ⟨by decide, by decide⟩
  | infinity s => exact isWord_ofList (by simp) ((hsign s).append (by decide))
  | zero s => exact isWord_ofList (by simp [hzero.2]) ((hsign s).append hzero.1)
  | finite s m e hm =>
    exact isWord_ofList (by simp [(hfinite m e).2]) ((hsign s).append (hfinite m e).1)

namespace Binary

variable {α : Type} [Binary α]

theorem isWord_fixed (places : ℕ) (x : α) : IsWord (fixed places x) :=
  isWord_unpackedText ⟨Decimal.visible_placesText _ _, by simp [Decimal.placesText]⟩
    (fun _ _ => ⟨Decimal.visible_placesText _ _, by simp [Decimal.placesText]⟩) _

theorem isWord_scientific (places : ℕ) (x : α) : IsWord (scientific places x) := by
  have hexponent (e : ℤ) : Decimal.exponentText e ≠ [] := by
    rw [Decimal.exponentText]
    split <;> exact List.cons_ne_nil _ _
  refine isWord_unpackedText ⟨?_, ?_⟩ (fun m e => ⟨Decimal.visible_scientificText _, ?_⟩) _
  · refine (Decimal.visible_pointed fun c hc => ?_).append (Decimal.visible_exponentText 0)
    rw [List.eq_of_mem_replicate hc]
    decide
  · simp [hexponent]
  · simp [Decimal.scientificText, hexponent]

end Binary

end HybridGradient
