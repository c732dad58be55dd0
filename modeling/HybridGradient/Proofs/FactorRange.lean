import HybridGradient.Balance
import HybridGradient.Proofs.BinaryScalar

/-!
# The range of scaling factors

The factor of a line in a single pass is a positive number, because a factor that is not one
is replaced, and is never less than the least factor allowed. The factors of a scaled problem
are products of those of all passes, rounded after each of them. They are never negative, and
always numbers or infinite; after up to two passes they are positive and finite, since the
product of two roots can be stored; after more they may be too small or too large for that.

* `Rounding.RootBounds`, `Rounding.exists_rootBounds`: the range of the roots in a format;
* `Balance.exists_value_factor`: the range of the factors of a single pass;
* `Factors.Product`, `Factors.products_balancing`: factors as products over the passes.
-/

namespace HybridGradient

open Extended Float.Model

/-! ### Roots -/

namespace Rounding

variable {F : Format}

/-- The greatest number of a format. -/
noncomputable def greatest (F : Format) : ℝ := (2 ^ F.mantissaBits - 1) * 2 ^ maxExponent F

/-- Numbers between which the rounded roots of a format lie. The product of two of them is
    neither too small nor too large. -/
structure RootBounds (F : Format) (l g : ℝ) : Prop where
  pos : 0 < l
  le_one : l ≤ 1
  one_le : 1 ≤ g
  le_root : ∀ a r, (2 : ℝ) ^ F.minExponent ≤ a → Nearest F √a r → l ≤ r
  root_le : ∀ a r, 0 ≤ a → a ≤ greatest F → Nearest F √a r → r ≤ g
  lt_mul : (2 : ℝ) ^ (F.minExponent - 1) < l * l
  mul_le : g * g ≤ greatest F

/-- The greatest number has a canonical form, with all digits ones. -/
theorem canonical_ones {e : ℤ} (he : F.minExponent ≤ e) :
    Canonical F (2 ^ F.mantissaBits - 1) e := by
  have hfull := two_pow_mantissaBits F
  have hpos := Nat.two_pow_pos F.mantissaBitsWithoutImplicit
  exact ⟨by omega, he, .inr (by omega)⟩

theorem cast_ones (F : Format) : ((2 ^ F.mantissaBits - 1 : ℕ) : ℝ) = 2 ^ F.mantissaBits - 1 := by
  rw [Nat.cast_sub Nat.one_le_two_pow, Nat.cast_pow, Nat.cast_two, Nat.cast_one]

theorem representable_greatest (hF : 2 ≤ F.exponentBits) : Representable F (greatest F) := by
  have hbias := one_le_exponentBias hF
  have he : F.minExponent ≤ maxExponent F := by
    rw [minExponent_eq, maxExponent]
    omega
  rw [greatest, ← cast_ones]
  exact (canonical_ones he).representable

theorem greatest_lt_overflow (hF : 2 ≤ F.exponentBits) : greatest F < overflow F := by
  have hbias := one_le_exponentBias hF
  have he : F.minExponent ≤ maxExponent F := by
    rw [minExponent_eq, maxExponent]
    omega
  rw [greatest, ← cast_ones]
  exact ((canonical_ones he).value_lt_overflow_iff hF).2 le_rfl

theorem le_greatest (hF : 2 ≤ F.exponentBits) {a : ℝ} (ha : Representable F a) (hpos : 0 ≤ a)
    (hlt : a < overflow F) : a ≤ greatest F := by
  obtain ⟨m, e, h, habs⟩ := ha
  rw [abs_of_nonneg hpos] at habs
  rw [habs] at hlt ⊢
  have hm : (m : ℝ) ≤ 2 ^ F.mantissaBits - 1 := by
    rw [← cast_ones]
    exact_mod_cast Nat.le_pred_of_lt h.lt
  have he := (h.value_lt_overflow_iff hF).1 hlt
  exact mul_le_mul hm (zpow_le_zpow_right₀ one_le_two he) (by positivity)
    ((Nat.cast_nonneg m).trans hm)

/-- The least positive number of a format. -/
theorem two_pow_minExponent_le {a : ℝ} (ha : Representable F a) (hpos : 0 < a) :
    (2 : ℝ) ^ F.minExponent ≤ a := by
  obtain ⟨m, e, h, habs⟩ := ha
  rw [abs_of_pos hpos] at habs
  have hm : 1 ≤ m := by
    refine Nat.one_le_iff_ne_zero.2 fun h0 => hpos.ne' ?_
    rw [habs, h0, Nat.cast_zero, zero_mul]
  calc (2 : ℝ) ^ F.minExponent ≤ 2 ^ e := zpow_le_zpow_right₀ one_le_two h.minExponent_le
    _ ≤ m * 2 ^ e := le_mul_of_one_le_left (by positivity) (by exact_mod_cast hm)
    _ = a := habs.symm

/-- A number of the format just below the root of its least positive number. -/
theorem exists_least_root (hF : 23 ≤ F.mantissaBitsWithoutImplicit) :
    ∃ l : ℝ, Representable F l ∧ 0 < l ∧ l ≤ 1 ∧ (2 : ℝ) ^ (F.minExponent - 1) < l * l ∧
      l * l ≤ 2 ^ F.minExponent := by
  have hmin : F.minExponent ≤ -22 := by
    rw [minExponent_eq]
    omega
  obtain ⟨k, hk⟩ := Int.even_or_odd' F.minExponent
  have hpos : (0 : ℝ) < 2 ^ k := by positivity
  have hsq : (2 : ℝ) ^ (2 * k) = 2 ^ k * 2 ^ k := by rw [two_mul, zpow_add₀ two_ne_zero]
  have hle {j : ℤ} (hj : j ≤ 0) : (2 : ℝ) ^ j ≤ 1 := zpow_le_one_of_nonpos₀ one_le_two hj
  rcases hk with hk | hk
  · -- The root is a power of two.
    refine ⟨2 ^ k, representable_two_pow (by omega), hpos, hle (by omega), ?_, ?_⟩
    · rw [← hsq, hk]
      exact zpow_lt_zpow_right₀ one_lt_two (by omega)
    · rw [← hsq, hk]
  · -- The root is a power of two times the root of two, of which five quarters is less.
    have hdigits : (5 : ℕ) < 2 ^ F.mantissaBits :=
      lt_of_lt_of_le (by norm_num : 5 < 2 ^ 23)
        (Nat.pow_le_pow_right two_pos (hF.trans (by simp [Format.mantissaBits])))
    have hvalue : ((5 : ℕ) : ℝ) * 2 ^ (k - 2) = 5 / 4 * 2 ^ k := by
      rw [zpow_sub₀ two_ne_zero]
      norm_num
      ring
    have hquarter : (2 : ℝ) ^ k ≤ 1 / 2 := by
      calc (2 : ℝ) ^ k ≤ 2 ^ (-1 : ℤ) := zpow_le_zpow_right₀ one_le_two (by omega)
        _ = 1 / 2 := by norm_num
    refine ⟨5 / 4 * 2 ^ k, ?_, by positivity, by linarith, ?_, ?_⟩
    · rw [← hvalue]
      exact representable_of_lt hdigits (by omega)
    · rw [hk, add_sub_cancel_right, hsq]
      nlinarith [mul_pos hpos hpos]
    · rw [hk, zpow_add_one₀ two_ne_zero, hsq]
      nlinarith [mul_pos hpos hpos]

/-- The power of two that is too large has an even exponent. -/
theorem exists_exponentBias_eq (hF : 2 ≤ F.exponentBits) :
    ∃ h : ℕ, F.exponentBias + 1 = 2 * h ∧ 1 ≤ h := by
  have hcapacity := two_pow_exponentBits F
  have hsplit : 2 ^ F.exponentBits = 4 * 2 ^ (F.exponentBits - 2) := by
    rw [show F.exponentBits = 2 + (F.exponentBits - 2) by omega, pow_add]
    norm_num
  exact ⟨2 ^ (F.exponentBits - 2), by omega, Nat.one_le_two_pow⟩

/-- A number of the format that no root is rounded up to. It is the one before the root of the
    power of two that is too large. -/
theorem exists_greatest_root (hF : 2 ≤ F.exponentBits) :
    ∃ g : ℝ, 1 ≤ g ∧ g * g ≤ greatest F ∧
      ∀ a r, 0 ≤ a → a ≤ greatest F → Nearest F √a r → r ≤ g := by
  have hbits : F.mantissaBits = 1 + F.mantissaBitsWithoutImplicit := rfl
  obtain ⟨h, hh, hpos⟩ := exists_exponentBias_eq hF
  have hcanonical : Canonical F (2 ^ F.mantissaBits - 1) ((h : ℤ) - F.mantissaBits) :=
    canonical_ones (by rw [minExponent_eq]; omega)
  -- The root of the power of two is `N` units of the number before it.
  set N : ℝ := 2 ^ F.mantissaBits with hN
  set u : ℝ := 2 ^ ((h : ℤ) - F.mantissaBits) with hu
  have hupos : 0 < u := by positivity
  have htwo : 2 ≤ N := by
    rw [hN, hbits, pow_add, pow_one]
    exact le_mul_of_one_le_right zero_le_two (one_le_pow₀ one_le_two)
  have hroot : N * u = 2 ^ (h : ℤ) := by
    rw [hN, hu, ← zpow_natCast, ← zpow_add₀ two_ne_zero, add_sub_cancel]
  have hone : 1 ≤ N / 2 * u := by
    rw [div_mul_eq_mul_div, hroot, one_le_div two_pos]
    calc (2 : ℝ) = 2 ^ (1 : ℤ) := (zpow_one 2).symm
      _ ≤ 2 ^ (h : ℤ) := zpow_le_zpow_right₀ one_le_two (by omega)
  have hgreatest : greatest F = (N - 1) * (N * u * u) := by
    have hexponent : maxExponent F = h + ((h : ℤ) - F.mantissaBits) := by
      rw [maxExponent]
      omega
    rw [greatest, hexponent, zpow_add₀ two_ne_zero, ← hroot, mul_assoc]
  refine ⟨(N - 1) * u, by nlinarith, ?_, fun a r ha hle hr => ?_⟩
  · rw [hgreatest]
    nlinarith [mul_pos hupos hupos]
  · have hmiddle : √a < (N - 1 + 1 / 2) * u := by
      rw [Real.sqrt_lt' (by nlinarith)]
      rw [hgreatest] at hle
      nlinarith [mul_pos hupos hupos]
    have hle := hr.le_of_lt_middle hcanonical (by rwa [cast_ones])
    rwa [cast_ones] at hle

/-- Between the least and the greatest number of a format, rounding leaves a positive number. -/
theorem Rounds.exists_real (hF : 2 ≤ F.exponentBits) {x : ℝ} {v : Extended} (h : Rounds F x v)
    (hlt : (2 : ℝ) ^ (F.minExponent - 1) < x) (hle : x ≤ greatest F) :
    ∃ a, v = .real a ∧ 0 < a := by
  cases h with
  | real h hr => exact ⟨_, rfl, h.pos hlt⟩
  | top h hr =>
    exact absurd (h.ge (representable_greatest hF) hle)
      (not_le.2 ((greatest_lt_overflow hF).trans_le hr))
  | bot h hr => exact absurd (h.pos hlt) (by linarith [overflow_pos F])

/-- The roots of a format have a range. -/
theorem exists_rootBounds (hm : 23 ≤ F.mantissaBitsWithoutImplicit) (he : 2 ≤ F.exponentBits) :
    ∃ l g, RootBounds F l g := by
  obtain ⟨l, hl, hpos, hone, hlt, hle⟩ := exists_least_root hm
  obtain ⟨g, hg, hmul, hroot⟩ := exists_greatest_root he
  refine ⟨l, g, hpos, hone, hg, fun a r ha hr => hr.le hl ?_, hroot, hlt, hmul⟩
  exact Real.le_sqrt_of_sq_le ((sq l).trans_le (hle.trans ha))

end Rounding

/-! ### Products over the passes -/

namespace Factors

variable {α : Type} [Scalar α]

/-- A product of factors of as many passes, taken one after the other. -/
inductive Product (least : α) : ℕ → α → Prop
  | one : Product least 0 1
  | mul {k : ℕ} {d : α} (h : Product least k d) (b : Balance) (range : MagnitudeRange α) :
      Product least (k + 1) (d * b.factor least range)

/-- Factors of which each is a product over the same number of passes. -/
structure Products (least : α) (k : ℕ) (f : Factors α) : Prop where
  rows : ∀ d ∈ f.rows, Product least k d
  cols : ∀ d ∈ f.cols, Product least k d

variable {A : SparseMatrix α} {f : Factors α} {least : α} {k : ℕ}

/-- Each factor is multiplied by one of the pass. -/
theorem Product.times {v : Vec α} (h : ∀ d ∈ v, Product least k d) (b : Balance)
    (ranges : Array (MagnitudeRange α)) :
    ∀ d ∈ Vec.times v (ranges.map (b.factor least)), Product least (k + 1) d := by
  intro d hd
  obtain ⟨i, hi, hd⟩ := Array.mem_iff_getElem.1 hd
  rw [← hd]
  simp only [Vec.times, Array.getElem_zipWith, Array.getElem_map]
  exact (h _ (Array.getElem_mem _)).mul b _

theorem Products.pass (h : f.Products least k) (b : Balance) :
    (Factors.pass b least A f).Products least (k + 1) := by
  cases b with
  | geometricMean => exact ⟨Product.times h.rows _ _, Product.times h.cols _ _⟩
  | largest => exact ⟨Product.times h.rows _ _, Product.times h.cols _ _⟩

theorem Products.passes (h : f.Products least k) (b : Balance) (count : ℕ) :
    (Factors.passes b least A count f).Products least (k + count) := by
  induction count with
  | zero => exact h
  | succ count ih => exact ih.pass b

/-- The factors that balance a matrix are products over all passes. -/
theorem products_balancing (A : SparseMatrix α) (means largests : ℕ) (least : α) :
    (balancing A means largests least).Products least (means + largests) := by
  have hones {n : ℕ} {d : α} (hd : d ∈ (Vec.ones n : Vec α)) : Product least 0 d :=
    Array.eq_of_mem_replicate hd ▸ .one
  have hunit : (unit A).Products least 0 := ⟨fun _ => hones, fun _ => hones⟩
  have hmeans := hunit.passes (A := A) .geometricMean means
  rw [zero_add] at hmeans
  exact hmeans.passes .largest largests

end Factors

/-! ### The range of a factor -/

open Rounding Binary

variable {α : Type} [Scalar α] [Binary α] [LawfulBinary α]

/-- The factor of a line is a positive number, no less than the least one allowed, and lies in
    the range of the roots, whatever the magnitudes of the line are. -/
theorem Balance.exists_value_factor {least : α} {l : ℝ} (hl : value least = .real l)
    (hone : l ≤ 1) (b : Balance) (range : MagnitudeRange α) :
    ∃ f, value (b.factor least range) = .real f ∧ l ≤ f ∧
      ∀ l' g, RootBounds (format α) l' g → l' ≤ f ∧ f ≤ g := by
  -- The two ways to balance differ in the number whose root is taken, and in nothing else.
  obtain ⟨x, hx⟩ : ∃ x, b.factor least range =
      if Scalar.isFinite (Scalar.sqrt x) ∧ 0 < Scalar.sqrt x
        then Scalar.greater (Scalar.sqrt x) least else 1 := by
    cases b with
    | geometricMean => exact ⟨_, rfl⟩
    | largest => exact ⟨_, rfl⟩
  rw [hx]
  split
  · rename_i hroot
    obtain ⟨r, hr, hrpos⟩ := isFinite_and_pos_iff.1 hroot
    obtain ⟨a, ha, hapos, hnearest⟩ := exists_of_sqrt_pos hr hrpos
    obtain ⟨hrepresentable, hlt⟩ := representable ha
    have hgreatest := le_greatest two_le_exponentBits hrepresentable hapos.le
      ((le_abs_self a).trans_lt hlt)
    have hleast := two_pow_minExponent_le hrepresentable hapos
    refine ⟨max r l, value_greater hr hl, le_max_right r l, fun l' g hb => ⟨?_, ?_⟩⟩
    · exact (hb.le_root a r hleast hnearest).trans (le_max_left r l)
    · exact max_le (hb.root_le a r hapos.le hgreatest hnearest) (hone.trans hb.one_le)
  · exact ⟨1, value_one, hone, fun l' g hb => ⟨hb.le_one, hb.one_le⟩⟩

/-! ### The range of a product -/

/-- A product is above the product of numbers that its factors are above, if the format
    represents it. -/
theorem Binary.le_value_mul {x y : α} {s t b : ℝ} (hs : 0 ≤ s) (ht : 0 ≤ t)
    (hx : .real s ≤ value x) (hy : value y = .real b) (hpos : 0 < b) (htb : t ≤ b)
    (hst : Representable (format α) (s * t)) (hlt : s * t < overflow (format α)) :
    .real (s * t) ≤ value (x * y) := by
  cases h : value x with
  | real a =>
    rw [h, real_le_real] at hx
    refine (rounds_mul h hy).ge hst ?_ (mul_le_mul hx htb ht (hs.trans hx))
    rwa [abs_of_nonneg (mul_nonneg hs ht)]
  | top =>
    rw [(value_mul_top hy hpos h).2]
    exact real_le_top _
  | bot =>
    rw [h] at hx
    exact absurd hx (not_real_le_bot s)
  | undefined =>
    rw [h] at hx
    exact absurd hx (not_le_undefined _)

namespace Factors

variable {least : α} {l : ℝ} (hl : value least = .real l) (hpos : 0 < l) (hone : l ≤ 1)

include hl hpos hone

/-- A product of factors is a number that is not negative, or infinite. -/
theorem Product.nonneg {k : ℕ} {d : α} (h : Product least k d) : 0 ≤ d := by
  rw [le_iff, value_zero]
  induction h with
  | one =>
    rw [value_one]
    exact real_le_real.2 zero_le_one
  | mul h b range ih =>
    obtain ⟨f, hf, hlf, -⟩ := b.exists_value_factor hl hone range
    have hle := le_value_mul le_rfl le_rfl ih hf (hpos.trans_le hlf) (hpos.trans_le hlf).le
      (by simpa using representable_zero _) (by simpa using overflow_pos _)
    rwa [zero_mul] at hle

/-- Where the least factor allowed is no less than a power of two, a product of factors is no
    less than the power of that, as long as this can be stored. -/
theorem Product.two_pow_le {n : ℕ} (hn : (2 : ℝ) ^ (-n : ℤ) ≤ l) {k : ℕ} {d : α}
    (h : Product least k d) (hk : (format α).minExponent ≤ -(n * k : ℕ)) :
    .real (2 ^ (-(n * k : ℕ) : ℤ)) ≤ value d := by
  induction h with
  | one =>
    rw [value_one]
    simp
  | mul h b range ih =>
    rename_i k d
    obtain ⟨f, hf, hlf, -⟩ := b.exists_value_factor hl hone range
    have hexponent : (-(n * (k + 1) : ℕ) : ℤ) = -(n * k : ℕ) + -(n : ℕ) := by
      push_cast
      ring
    have hvalue : (2 : ℝ) ^ (-(n * (k + 1) : ℕ) : ℤ) = 2 ^ (-(n * k : ℕ) : ℤ) * 2 ^ (-n : ℤ) := by
      rw [hexponent, zpow_add₀ two_ne_zero]
    have hsmall : (2 : ℝ) ^ (-(n * (k + 1) : ℕ) : ℤ) < overflow (format α) :=
      (zpow_le_one_of_nonpos₀ one_le_two (by omega)).trans_lt (one_lt_overflow _)
    rw [hvalue]
    refine le_value_mul (by positivity) (by positivity) (ih (by omega)) hf (hpos.trans_le hlf)
      (hn.trans hlf) ?_ ?_
    · rw [← hvalue]
      exact representable_two_pow hk
    · rwa [← hvalue]

/-- A product of up to two factors is a positive number. -/
theorem Product.isPositive {k : ℕ} {d : α} (h : Product least k d) (hk : k ≤ 2) :
    IsPositive d := by
  obtain ⟨lower, upper, hbounds⟩ :=
    exists_rootBounds (F := format α) le_mantissaBits two_le_exponentBits
  cases h with
  | one => exact ⟨1, value_one, one_pos⟩
  | mul h b range =>
    obtain ⟨f, hf, hlf, hrange⟩ := b.exists_value_factor hl hone range
    cases h with
    | one => exact ⟨f, value_one_mul hf, hpos.trans_le hlf⟩
    | mul h b' range' =>
      cases h with
      | mul => omega
      | one =>
        obtain ⟨f', hf', hlf', hrange'⟩ := b'.exists_value_factor hl hone range'
        obtain ⟨hlower, hupper⟩ := hrange lower upper hbounds
        obtain ⟨hlower', hupper'⟩ := hrange' lower upper hbounds
        have hlt : (2 : ℝ) ^ ((format α).minExponent - 1) < f' * f :=
          hbounds.lt_mul.trans_le (mul_le_mul hlower' hlower hbounds.pos.le (hpos.trans_le hlf').le)
        have hle : f' * f ≤ greatest (format α) :=
          (mul_le_mul hupper' hupper (hpos.trans_le hlf).le
            (zero_le_one.trans hbounds.one_le)).trans hbounds.mul_le
        exact (rounds_mul (value_one_mul hf') hf).exists_real two_le_exponentBits hlt hle

end Factors

end HybridGradient
