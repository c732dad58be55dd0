import HybridGradient.Proofs.EntryOrder
import HybridGradient.Proofs.Finiteness
import HybridGradient.Proofs.Lines

/-!
# Sums that are rounded

A sum of real values is rounded from the exact sum, as products, quotients and roots are. What
is within a number of the format stays within it when it is rounded, so that a sum of `n`
numbers within a power of two is within `n` times that power, as long as the format has digits
and exponents enough for it. Where no summand is negative, none of them is greater than the sum.

* `Binary.rounds_add`: sums in terms of values;
* `ConvertingBinary`: the scalars to which binary64 numbers are converted by rounding them, with
  the two instances;
* `Binary.Within`, `Binary.AtLeast`: bounds, with those of products and sums
  (`Binary.within_sum`, `Binary.atLeast_sum`);
* `SparseMatrix.within_accumulate`, `SparseMatrix.atLeast_accumulate`: the components of a product
  of a matrix and a vector.
-/

namespace HybridGradient

open Extended Float.Model Float.Model.UnpackedFloat

/-! ### Sums -/

namespace Rounding

variable {F : Format}

/-- Whatever significand and exponent a number is given by, it is rounded to a nearest number. -/
theorem round_nearest {m : ℕ} (hm : 0 < m) (e : ℤ) (s : Sign) :
    ∃ (m' : ℕ) (e' : ℤ), Canonical F m' e' ∧ Nearest F (m * 2 ^ e) (m' * 2 ^ e') ∧
      UnpackedFloat.round F s m e = signed s m' e' := by
  simp only [UnpackedFloat.round, decreaseExponent]
  set t := F.targetExponent (totalExponent m e) with ht
  rcases le_total e t with hle | hle
  · have hshift : (e - t).toNat = 0 := by omega
    rw [hshift, Nat.shiftLeft_zero, Nat.cast_zero, sub_zero]
    exact roundWithAccuracy_nearest (.exact m) hle s
  · -- A significand with few digits is first filled up with zeros.
    have hexponent : e - (e - t).toNat = t := by omega
    have htotal := totalExponent_shiftLeft hm hle
    obtain ⟨m', e', h, hnearest, hround⟩ := roundWithAccuracy_nearest (F := F)
      (.exact (m <<< (e - t).toNat)) (by rw [htotal, ← ht]) s
    rw [shiftLeft_value m hle] at hnearest
    exact ⟨m', e', h, hnearest, by rw [hexponent]; exact hround⟩

/-- An integer significand is rounded with its sign. -/
theorem rounds_normalize (hF : 2 ≤ F.exponentBits) (z e : ℤ) (s : Sign) :
    Rounds F (z * 2 ^ e) (ofUnpacked (stored F (UnpackedFloat.normalize F z e s))) := by
  rw [UnpackedFloat.normalize]
  rcases lt_trichotomy z 0 with hz | rfl | hz
  · obtain ⟨n, hn⟩ := Int.exists_eq_neg_ofNat hz.le
    obtain rfl := hn
    have hpos : 0 < n := by omega
    obtain ⟨m, e', h, hnearest, hround⟩ := round_nearest (F := F) hpos e .negative
    rw [Int.compare_eq_lt.2 hz]
    simp only [neg_neg, Int.toNat_natCast, hround]
    have hrounds := rounds_stored hF h hnearest .negative
    rw [unit, neg_one_mul, ← neg_mul] at hrounds
    push_cast
    exact hrounds
  · rw [Int.compare_eq_eq.2 rfl, stored_zero, Int.cast_zero, zero_mul]
    exact rounds_zero F
  · obtain ⟨n, rfl⟩ := Int.eq_ofNat_of_zero_le hz.le
    have hpos : 0 < n := by omega
    obtain ⟨m, e', h, hnearest, hround⟩ := round_nearest (F := F) hpos e .positive
    rw [Int.compare_eq_gt.2 hz]
    simp only [Int.toNat_natCast, hround]
    have hrounds := rounds_stored hF h hnearest .positive
    rwa [unit, one_mul] at hrounds

theorem cast_apply (s : Sign) (m : ℕ) : ((s.apply (m : ℤ) : ℤ) : ℝ) = unit s * m := by
  cases s <;> simp [Sign.apply, unit]

/-- A sum is rounded from its exact value. -/
theorem rounds_add_finite (hF : 2 ≤ F.exponentBits) {m m' : ℕ} {e e' : ℤ} (hm : 0 < m)
    (hm' : 0 < m') (s s' : Sign) :
    Rounds F (unit s * (m * 2 ^ e) + unit s' * (m' * 2 ^ e')) (ofUnpacked (stored F
      (UnpackedFloat.add F (.finite s m e hm) (.finite s' m' e' hm')))) := by
  have hsum := rounds_normalize hF (s.apply ((m <<< (e - min e e').toNat : ℕ) : ℤ) +
    s'.apply ((m' <<< (e' - min e e').toNat : ℕ) : ℤ)) (min e e') .positive
  rw [Int.cast_add, cast_apply, cast_apply, add_mul, mul_assoc, mul_assoc,
    shiftLeft_value m (min_le_left e e'), shiftLeft_value m' (min_le_right e e')] at hsum
  exact hsum

end Rounding

namespace Binary

open Rounding

variable {α : Type} [Binary α] [Scalar α] [LawfulBinary α]

/-- A zero leaves a summand as it is, on either side. -/
theorem value_zero_add {x y : α} {s : Sign} (hx : unpack x = .zero s) :
    value (x + y) = value y := by
  have hfits := fits y
  rw [value, value, LawfulBinary.unpack_add, hx]
  rcases hy : unpack y with s' | _ | s' | ⟨s', m, e, hm⟩
  · exact congrArg ofUnpacked (stored_infinity s')
  · exact congrArg ofUnpacked stored_notANumber
  · -- The sum of two zeros may have the other sign.
    rw [UnpackedFloat.add]
    split
    · rw [stored_zero]
      rfl
    · rw [stored_zero]
      rfl
  · rw [hy] at hfits
    exact congrArg ofUnpacked (stored_of_fits hfits)

/-- A real value is rounded to itself. -/
theorem rounds_self {x : α} {a : ℝ} (h : value x = .real a) : Rounds (format α) a (value x) := by
  obtain ⟨hrepresentable, hlt⟩ := representable h
  rw [h]
  exact .real ⟨hrepresentable, fun s _ => by simp⟩ hlt

/-- A sum of real values is rounded. -/
theorem rounds_add {x y : α} {a b : ℝ} (hx : value x = .real a) (hy : value y = .real b) :
    Rounds (format α) (a + b) (value (x + y)) := by
  rcases eq_or_ne a 0 with rfl | ha
  · obtain ⟨s, hux⟩ := exists_unpack_zero hx
    rw [value_zero_add hux, zero_add]
    exact rounds_self hy
  · rcases eq_or_ne b 0 with rfl | hb
    · obtain ⟨s, huy⟩ := exists_unpack_zero hy
      rw [value_add_zero huy, add_zero]
      exact rounds_self hx
    · obtain ⟨s, m, e, hm, -, hux, rfl⟩ := exists_unpack_finite hx ha
      obtain ⟨s', m', e', hm', -, huy, rfl⟩ := exists_unpack_finite hy hb
      rw [value, LawfulBinary.unpack_add, hux, huy]
      exact rounds_add_finite two_le_exponentBits hm hm' s s'

end Binary

/-! ### Conversions -/

open Rounding

/-- The binary scalars to which binary64 numbers are converted by rounding them. Their
    significands have no more digits than the greatest exponent says. -/
class ConvertingBinary (α : Type) [Scalar α] [Binary α] : Prop extends LawfulBinary α where
  mantissaBits_le_exponentBias :
    (Binary.format α).mantissaBitsWithoutImplicit ≤ (Binary.format α).exponentBias
  rounds_ofBinary64 {x : Float} {a : ℝ} (hx : Binary.value x = .real a) :
    Rounds (Binary.format α) a (Binary.value (Scalar.ofBinary64 x : α))

instance : ConvertingBinary Float where
  mantissaBits_le_exponentBias := by decide
  rounds_ofBinary64 hx := Binary.rounds_self hx

instance : ConvertingBinary Float32 where
  mantissaBits_le_exponentBias := by decide
  rounds_ofBinary64 {x a} hx := by
    change Rounds .binary32 a (ofUnpacked (stored .binary32 (recast .binary32 (Binary.unpack x))))
    rcases eq_or_ne a 0 with rfl | ha
    · obtain ⟨s, hux⟩ := Binary.exists_unpack_zero hx
      rw [hux, recast, stored_zero]
      · exact rounds_zero _
      · nofun
    · obtain ⟨s, m, e, hm, -, hux, rfl⟩ := Binary.exists_unpack_finite hx ha
      obtain ⟨m', e', h, hnearest, hround⟩ := round_nearest (F := .binary32) hm e s
      rw [hux, recast, hround]
      exact rounds_stored (by decide) h hnearest s

/-! ### Bounds -/

namespace Rounding

variable {F : Format}

theorem two_pow_lt_overflow {k : ℤ} (hk : k ≤ F.exponentBias) : (2 : ℝ) ^ k < overflow F := by
  rw [overflow, ← zpow_natCast]
  exact zpow_lt_zpow_right₀ one_lt_two (by push_cast; omega)

/-- What is within a number of the format is rounded to a number within it. -/
theorem Rounds.exists_abs_le {x b : ℝ} {v : Extended} (h : Rounds F x v)
    (hb : Representable F b) (hlt : b < overflow F) (hx : |x| ≤ b) :
    ∃ r, v = .real r ∧ |r| ≤ b := by
  obtain ⟨hge, hle⟩ := abs_le.1 hx
  cases h with
  | real h hr => exact ⟨_, rfl, abs_le.2 ⟨h.le hb.neg hge, h.ge hb hle⟩⟩
  | top h hr => exact absurd (h.ge hb hle) (not_le.2 (hlt.trans_le hr))
  | bot h hr => exact absurd (h.le hb.neg hge) (by linarith)

/-- What lies between two powers of two is rounded to a number between them. -/
theorem Rounds.exists_between_two_pow {x : ℝ} {v : Extended} {k l : ℤ} (h : Rounds F x v)
    (hk : 2 ^ k ≤ x) (hl : x ≤ 2 ^ l) (hmin : F.minExponent ≤ k) (hmax : l ≤ F.exponentBias) :
    ∃ r, v = .real r ∧ 2 ^ k ≤ r ∧ r ≤ 2 ^ l := by
  have hkl : k ≤ l := (zpow_le_zpow_iff_right₀ one_lt_two).1 (hk.trans hl)
  have hpos : (0 : ℝ) < 2 ^ k := by positivity
  obtain ⟨r, rfl, hr⟩ := h.exists_abs_le (representable_two_pow (hmin.trans hkl))
    (two_pow_lt_overflow hmax) (by rwa [abs_of_pos (hpos.trans_le hk)])
  have hge := h.ge (representable_two_pow hmin)
    (by rw [abs_of_pos hpos]; exact two_pow_lt_overflow (hkl.trans hmax)) hk
  exact ⟨r, rfl, real_le_real.1 hge, (le_abs_self r).trans hr⟩

/-- Up to `2 ^ q` numbers within `2 ^ k` have a sum that the format does not exceed. -/
structure SumRange (F : Format) (k : ℤ) (q : ℕ) : Prop where
  minExponent_le : F.minExponent ≤ k
  le_exponentBias : k + q ≤ F.exponentBias
  le_mantissaBits : q ≤ F.mantissaBitsWithoutImplicit

theorem SumRange.representable {k : ℤ} {q n : ℕ} (h : SumRange F k q) (hn : n ≤ 2 ^ q) :
    Representable F (n * 2 ^ k) ∧ (n : ℝ) * 2 ^ k < overflow F := by
  have hpow : (n : ℝ) * 2 ^ k ≤ 2 ^ (k + q) := by
    rw [add_comm, zpow_add₀ two_ne_zero, zpow_natCast]
    exact mul_le_mul_of_nonneg_right (by exact_mod_cast hn) (by positivity)
  have hdigits : n < 2 ^ F.mantissaBits := by
    refine hn.trans_lt (Nat.pow_lt_pow_right (by decide) ?_)
    have hbits : F.mantissaBits = 1 + F.mantissaBitsWithoutImplicit := rfl
    have hq := h.le_mantissaBits
    omega
  exact ⟨representable_of_lt hdigits h.minExponent_le,
    hpow.trans_lt (two_pow_lt_overflow h.le_exponentBias)⟩

end Rounding

namespace Binary

section

variable {α : Type} [Binary α]

/-- A scalar that is a number within a bound. -/
def Within (b : ℝ) (x : α) : Prop := ∃ a, value x = .real a ∧ |a| ≤ b

/-- A scalar that is a number no less than a bound. -/
def AtLeast (b : ℝ) (x : α) : Prop := ∃ a, value x = .real a ∧ b ≤ a

variable {b c : ℝ} {x : α}

theorem Within.mono (h : Within b x) (hbc : b ≤ c) : Within c x := by
  obtain ⟨a, ha, hab⟩ := h
  exact ⟨a, ha, hab.trans hbc⟩

theorem AtLeast.mono (h : AtLeast b x) (hcb : c ≤ b) : AtLeast c x := by
  obtain ⟨a, ha, hba⟩ := h
  exact ⟨a, ha, hcb.trans hba⟩

theorem AtLeast.le_of_within {k l : ℤ} (hl : AtLeast (2 ^ l) x) (hk : Within (2 ^ k) x) :
    l ≤ k := by
  obtain ⟨a, ha, hla⟩ := hl
  obtain ⟨a', ha', hak⟩ := hk
  obtain rfl := real_injective (ha.symm.trans ha')
  exact (zpow_le_zpow_iff_right₀ one_lt_two).1 (hla.trans ((le_abs_self a).trans hak))

theorem AtLeast.isPositive (h : AtLeast b x) (hb : 0 < b) : IsPositive x := by
  obtain ⟨a, ha, hba⟩ := h
  exact ⟨a, ha, hb.trans_le hba⟩

/-- A number that is rounded from one no less than a number of the format is no less either. -/
theorem Within.atLeast_of_rounds {s t : ℝ} (hx : Within b x)
    (h : Rounds (format α) s (value x)) (ht : Representable (format α) t)
    (hlt : |t| < overflow (format α)) (hts : t ≤ s) : AtLeast t x := by
  obtain ⟨a, ha, -⟩ := hx
  have hle := h.ge ht hlt hts
  rw [ha, real_le_real] at hle
  exact ⟨a, ha, hle⟩

end

variable {α : Type} [Binary α] [Scalar α] [LawfulBinary α] {x y : α} {k l : ℤ} {q : ℕ}

theorem within_zero {b : ℝ} (hb : 0 ≤ b) : Within b (0 : α) :=
  ⟨0, value_zero, by rwa [abs_zero]⟩

theorem Within.mul (hx : Within (2 ^ k) x) (hy : Within (2 ^ l) y)
    (hmin : (format α).minExponent ≤ k + l) (hmax : k + l ≤ (format α).exponentBias) :
    Within (2 ^ (k + l)) (x * y) := by
  obtain ⟨a, ha, hak⟩ := hx
  obtain ⟨b, hb, hbl⟩ := hy
  refine (rounds_mul ha hb).exists_abs_le (representable_two_pow hmin) (two_pow_lt_overflow hmax) ?_
  rw [abs_mul, zpow_add₀ two_ne_zero]
  exact mul_le_mul hak hbl (abs_nonneg b) (by positivity)

theorem Within.one_mul (hx : Within (2 ^ k) x) : Within (2 ^ k) (1 * x) := by
  obtain ⟨a, ha, hak⟩ := hx
  exact ⟨a, value_one_mul ha, hak⟩

theorem AtLeast.one_mul {b : ℝ} (hx : AtLeast b x) : AtLeast b (1 * x) := by
  obtain ⟨a, ha, hba⟩ := hx
  exact ⟨a, value_one_mul ha, hba⟩

/-- A product is no less than the product of the numbers that its factors are no less than, if
    the format represents it. -/
theorem Within.atLeast_mul {b s t : ℝ} (hxy : Within b (x * y)) (hx : AtLeast s x)
    (hy : AtLeast t y) (hs : 0 ≤ s) (ht : 0 ≤ t) (hst : Representable (format α) (s * t))
    (hlt : s * t < overflow (format α)) : AtLeast (s * t) (x * y) := by
  obtain ⟨a, ha, hsa⟩ := hx
  obtain ⟨b, hb, htb⟩ := hy
  exact hxy.atLeast_of_rounds (rounds_mul ha hb) hst (by rwa [abs_of_nonneg (mul_nonneg hs ht)])
    (mul_le_mul hsa htb ht (hs.trans hsa))

theorem Within.atLeast_two_pow_mul {b : ℝ} (hxy : Within b (x * y)) (hx : AtLeast (2 ^ k) x)
    (hy : AtLeast (2 ^ l) y) (hmin : (format α).minExponent ≤ k + l)
    (hmax : k + l ≤ (format α).exponentBias) : AtLeast (2 ^ (k + l)) (x * y) := by
  rw [zpow_add₀ two_ne_zero]
  refine hxy.atLeast_mul hx hy (by positivity) (by positivity) ?_ ?_
  · rw [← zpow_add₀ two_ne_zero]
    exact representable_two_pow hmin
  · rw [← zpow_add₀ two_ne_zero]
    exact two_pow_lt_overflow hmax

theorem Within.nonneg_mul {b : ℝ} (hxy : Within b (x * y)) (hx : AtLeast 0 x) (hy : AtLeast 0 y) :
    AtLeast 0 (x * y) := by
  have h := hxy.atLeast_mul hx hy le_rfl le_rfl (by simpa using representable_zero _)
    (by simpa using overflow_pos _)
  rwa [mul_zero] at h

/-- A summand that is not negative leaves no less than the other one. -/
theorem Within.atLeast_add {a b : ℝ} (hxy : Within b (x + y)) (hx : AtLeast a x)
    (hy : AtLeast 0 y) : AtLeast a (x + y) := by
  obtain ⟨c, hc, hac⟩ := hx
  obtain ⟨d, hd, hd0⟩ := hy
  obtain ⟨hrepresentable, hlt⟩ := representable hc
  exact (hxy.atLeast_of_rounds (rounds_add hc hd) hrepresentable hlt
    (le_add_of_nonneg_right hd0)).mono hac

theorem Within.atLeast_add' {a b : ℝ} (hxy : Within b (x + y)) (hx : AtLeast 0 x)
    (hy : AtLeast a y) : AtLeast a (x + y) := by
  obtain ⟨c, hc, hc0⟩ := hx
  obtain ⟨d, hd, had⟩ := hy
  obtain ⟨hrepresentable, hlt⟩ := representable hd
  exact (hxy.atLeast_of_rounds (rounds_add hc hd) hrepresentable hlt
    (le_add_of_nonneg_left hc0)).mono had

/-! ### Sums -/

section

variable {xs : List α} {n : ℕ} {s : α} (hrange : SumRange (format α) k q)

include hrange

theorem Within.add {x : α} (hs : Within (n * 2 ^ k) s) (hx : Within (2 ^ k) x)
    (hn : n + 1 ≤ 2 ^ q) : Within ((n + 1 : ℕ) * 2 ^ k) (s + x) := by
  obtain ⟨a, ha, han⟩ := hs
  obtain ⟨b, hb, hbk⟩ := hx
  obtain ⟨hrep, hlt⟩ := hrange.representable hn
  refine (rounds_add ha hb).exists_abs_le hrep hlt ((abs_add_le a b).trans ?_)
  push_cast
  linarith

variable (hxs : ∀ x ∈ xs, Within (2 ^ k) x)

include hxs

theorem within_foldl_add (hs : Within (n * 2 ^ k) s) (hn : n + xs.length ≤ 2 ^ q) :
    Within ((n + xs.length : ℕ) * 2 ^ k) (xs.foldl (· + ·) s) := by
  induction xs generalizing n s with
  | nil => exact hs
  | cons x xs ih =>
    rw [List.length_cons] at hn
    have hsum := hs.add hrange (hxs x List.mem_cons_self) (by omega)
    have h := ih (fun y hy => hxs y (List.mem_cons_of_mem x hy)) hsum (by omega)
    rwa [List.length_cons, List.foldl_cons, Nat.add_comm xs.length, ← Nat.add_assoc]

/-- A sum of numbers within a bound. -/
theorem within_sum (hlen : xs.length ≤ 2 ^ q) :
    Within (2 ^ (k + q)) (xs.foldl (· + ·) 0) := by
  have h := within_foldl_add hrange hxs (n := 0) (by simpa using within_zero le_rfl)
    (by rwa [Nat.zero_add])
  refine h.mono ?_
  rw [Nat.zero_add, add_comm, zpow_add₀ two_ne_zero, zpow_natCast]
  exact mul_le_mul_of_nonneg_right (by exact_mod_cast hlen) (by positivity)

/-- A sum of numbers that are not negative is no less than any of them. -/
theorem atLeast_foldl_add (hnonneg : ∀ x ∈ xs, AtLeast 0 x) (hs : Within (n * 2 ^ k) s)
    (hs0 : AtLeast 0 s) (hn : n + xs.length ≤ 2 ^ q) {a : ℝ}
    (ha : AtLeast a s ∨ ∃ x ∈ xs, AtLeast a x) : AtLeast a (xs.foldl (· + ·) s) := by
  induction xs generalizing n s with
  | nil => exact ha.resolve_right (by simp)
  | cons x xs ih =>
    rw [List.length_cons] at hn
    have hx := hnonneg x List.mem_cons_self
    have hsum := hs.add hrange (hxs x List.mem_cons_self) (by omega)
    have ha' : AtLeast a (s + x) ∨ ∃ y ∈ xs, AtLeast a y := by
      rcases ha with ha | ⟨y, hy, ha⟩
      · exact .inl (hsum.atLeast_add ha hx)
      · rcases List.mem_cons.1 hy with rfl | hy
        · exact .inl (hsum.atLeast_add' hs0 ha)
        · exact .inr ⟨y, hy, ha⟩
    exact ih (fun y hy => hxs y (List.mem_cons_of_mem x hy))
      (fun y hy => hnonneg y (List.mem_cons_of_mem x hy)) hsum (hsum.atLeast_add hs0 hx)
      (by omega) ha'

theorem atLeast_sum (hnonneg : ∀ x ∈ xs, AtLeast 0 x) (hlen : xs.length ≤ 2 ^ q) {a : ℝ}
    (ha : AtLeast a (0 : α) ∨ ∃ x ∈ xs, AtLeast a x) : AtLeast a (xs.foldl (· + ·) 0) :=
  atLeast_foldl_add hrange hxs hnonneg (n := 0) (by simpa using within_zero le_rfl)
    ⟨0, value_zero, le_rfl⟩ (by rwa [Nat.zero_add]) ha

end

end Binary

/-! ### Products of a matrix and a vector -/

namespace Vec

variable {α : Type} [Binary α] [Scalar α]

/-- A vector whose components are numbers within a bound. -/
def Within (b : ℝ) (v : Vec α) : Prop := ∀ j, Binary.Within b (v.getD j 0)

/-- A vector whose components are numbers that are not negative. -/
def Nonneg (v : Vec α) : Prop := ∀ j, Binary.AtLeast 0 (v.getD j 0)

end Vec

namespace SparseMatrix

open Binary

section

variable {α : Type}

/-- Entries at different positions of a line are no more than there are places in the line. -/
theorem length_line_le {target source : Entry α → ℕ} {es : List (Entry α)} {n : ℕ}
    (hes : es.Pairwise fun e f => ¬ (target f = target e ∧ source f = source e))
    (hn : ∀ e ∈ es, source e < n) (i : ℕ) : (es.filter (target · = i)).length ≤ n := by
  have hnodup : ((es.filter (target · = i)).map source).Nodup := by
    rw [List.Nodup, List.pairwise_map]
    refine (hes.filter _).imp_of_mem fun he hf h hsame => h ⟨?_, hsame.symm⟩
    simp only [List.mem_filter, decide_eq_true_eq] at he hf
    rw [he.2, hf.2]
  have hsubset : (es.filter (target · = i)).map source ⊆ List.range n := by
    intro j hj
    obtain ⟨e, he, rfl⟩ := List.mem_map.1 hj
    exact List.mem_range.2 (hn e (List.mem_of_mem_filter he))
  simpa using (List.subperm_of_subset hnodup hsubset).length_le

theorem length_row_le (A : SparseMatrix α) (i : ℕ) :
    (A.entries.filter (·.row = i)).length ≤ A.cols :=
  length_line_le A.pairwise_not_samePosition (fun e he => (A.inBounds e he).2) i

theorem length_col_le (A : SparseMatrix α) (j : ℕ) :
    (A.entries.filter (·.col = j)).length ≤ A.rows :=
  length_line_le (A.pairwise_not_samePosition.imp fun h hsame => h hsame.symm)
    (fun e he => (A.inBounds e he).1) j

/-- The product of a line of entries and a vector, added up from zero on. -/
def lineSum [Scalar α] (target source : Entry α → ℕ) (x : Vec α) (es : List (Entry α))
    (i : ℕ) : α :=
  ((es.filter (target · = i)).map fun e => 1 * e.value * x.getD (source e) 0).foldl (· + ·) 0

end

variable {α : Type} [Binary α] [Scalar α] [LawfulBinary α] {target source : Entry α → ℕ}
  {x : Vec α} {es : List (Entry α)}

theorem getD_accumulate_zeros (n i : ℕ) :
    (accumulate target source 1 x es (preset 0 (Vec.zeros n))).getD i 0 =
      if i < n then lineSum target source x es i else 0 := by
  have hzero : ((0 : α) == 0) = true := beq_self_eq_true value_zero
  rw [preset, if_pos hzero, Vec.size_zeros, accumulate, Array.getD_eq_getD_getElem?,
    getElem?_foldl_modify, Vec.zeros, Array.getElem?_replicate]
  split
  · rw [Option.map_some, Option.getD_some, lineSum, List.foldl_map]
  · rfl

section

variable {k l : ℤ} {q : ℕ} (hes : ∀ e ∈ es, Within (2 ^ k) e.value) (hx : x.Within (2 ^ l))
  (hrange : SumRange (format α) (k + l) q)

include hes hx hrange

theorem within_term {e : Entry α} (he : e ∈ es) :
    Within (2 ^ (k + l)) (1 * e.value * x.getD (source e) 0) := by
  have hmax := hrange.le_exponentBias
  exact (hes e he).one_mul.mul (hx _) hrange.minExponent_le (by omega)

variable (hlen : ∀ i, (es.filter (target · = i)).length ≤ 2 ^ q)

include hlen

theorem within_accumulate (n : ℕ) :
    (accumulate target source 1 x es (preset 0 (Vec.zeros n))).Within (2 ^ (k + l + q)) := by
  intro i
  rw [getD_accumulate_zeros]
  by_cases hi : i < n
  · rw [if_pos hi]
    refine within_sum hrange (fun y hy => ?_) (by rw [List.length_map]; exact hlen i)
    obtain ⟨e, he, rfl⟩ := List.mem_map.1 hy
    exact within_term hes hx hrange (List.mem_of_mem_filter he)
  · rw [if_neg hi]
    exact within_zero (by positivity)

variable (hes0 : ∀ e ∈ es, AtLeast 0 e.value) (hx0 : x.Nonneg)

include hes0 hx0

theorem atLeast_lineSum {b : ℝ} {i : ℕ} (hb : AtLeast b (0 : α) ∨ ∃ e ∈ es, target e = i ∧
    AtLeast b (1 * e.value * x.getD (source e) 0)) :
    AtLeast b (lineSum target source x es i) := by
  refine atLeast_sum hrange (fun y hy => ?_) (fun y hy => ?_)
    (by rw [List.length_map]; exact hlen i) ?_
  · obtain ⟨e, he, rfl⟩ := List.mem_map.1 hy
    exact within_term hes hx hrange (List.mem_of_mem_filter he)
  · obtain ⟨e, he, rfl⟩ := List.mem_map.1 hy
    have he := List.mem_of_mem_filter he
    exact (within_term hes hx hrange he).nonneg_mul (hes0 e he).one_mul (hx0 _)
  · refine hb.imp_right ?_
    rintro ⟨e, he, rfl, hterm⟩
    exact ⟨_, List.mem_map_of_mem (List.mem_filter.2 ⟨he, by simp⟩), hterm⟩

theorem nonneg_accumulate (n : ℕ) :
    (accumulate target source 1 x es (preset 0 (Vec.zeros n))).Nonneg := by
  intro i
  rw [getD_accumulate_zeros]
  by_cases hi : i < n
  · rw [if_pos hi]
    exact atLeast_lineSum hes hx hrange hlen hes0 hx0 (.inl ⟨0, value_zero, le_rfl⟩)
  · rw [if_neg hi]
    exact ⟨0, value_zero, le_rfl⟩

/-- A component of a product is no less than the product of powers of two that a coefficient in
    its line and the component for that are no less than. -/
theorem atLeast_accumulate {n : ℕ} {e : Entry α} (he : e ∈ es) (hn : target e < n) {i j : ℤ}
    (hi : AtLeast (2 ^ i) e.value) (hj : AtLeast (2 ^ j) (x.getD (source e) 0))
    (hmin : (format α).minExponent ≤ i + j) (hmax : i + j ≤ (format α).exponentBias) :
    AtLeast (2 ^ (i + j))
      ((accumulate target source 1 x es (preset 0 (Vec.zeros n))).getD (target e) 0) := by
  rw [getD_accumulate_zeros, if_pos hn]
  exact atLeast_lineSum hes hx hrange hlen hes0 hx0 (.inr ⟨e, he, rfl,
    (within_term hes hx hrange he).atLeast_two_pow_mul hi.one_mul hj hmin hmax⟩)

end

/-- Where a line has no coefficient other than zero, the product is zero. -/
theorem value_lineSum_eq_zero {i : ℕ} (hes : ∀ e ∈ es, target e = i → value e.value = .real 0)
    (hx : ∀ j, ∃ a, value (x.getD j 0) = .real a) :
    value (lineSum target source x es i) = .real 0 := by
  have hzero {y : α} (h : Rounds (format α) 0 (value y)) : value y = .real 0 :=
    h.eq_real (representable_zero _) (by simpa using overflow_pos _)
  have hsum (xs : List α) (hxs : ∀ y ∈ xs, value y = .real 0) (s : α) (hs : value s = .real 0) :
      value (xs.foldl (· + ·) s) = .real 0 := by
    induction xs generalizing s with
    | nil => exact hs
    | cons y xs ih =>
      have h := rounds_add hs (hxs y List.mem_cons_self)
      rw [add_zero] at h
      exact ih (fun z hz => hxs z (List.mem_cons_of_mem y hz)) _ (hzero h)
  refine hsum _ (fun y hy => ?_) 0 value_zero
  obtain ⟨e, he, rfl⟩ := List.mem_map.1 hy
  obtain ⟨he, hi⟩ := List.mem_filter.1 he
  obtain ⟨a, ha⟩ := hx (source e)
  have h := rounds_mul (value_one_mul (hes e he (by simpa using hi))) ha
  rw [zero_mul] at h
  exact hzero h

end SparseMatrix

end HybridGradient
