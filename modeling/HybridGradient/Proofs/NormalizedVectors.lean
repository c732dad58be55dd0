import HybridGradient.Proofs.Binary64
import HybridGradient.Proofs.RoundedSums

/-!
# Vectors that are normalised

A vector is brought to unit length by the reciprocal of its norm, the rounded root of a sum of
rounded squares. Of a vector within a power of two whose squares and their sum are in the range
of the format, the norm is a positive number or zero; over it, no component is greater than
two, and what is large among the components stays large. The start vectors of the power method
are made this way from components between one half and two.

* `Binary.IsPositive.exists_log_sqrt`: the root of a positive number is far inside the range;
* `Vec.norm_cases`, `Vec.within_normalized`: a norm, and a vector over it;
* `SpectralNorm.exists_value_startComponent`: the components of a start vector.
-/

namespace HybridGradient

open Extended Binary Rounding Float.Model

/-! ### Roots -/

namespace Binary

variable {α : Type} [Binary α] [Scalar α] [LawfulBinary α] {x : α}

theorem two_pow_mul_self (k : ℤ) : (2 : ℝ) ^ (2 * k) = 2 ^ k * 2 ^ k := by
  rw [two_mul, zpow_add₀ two_ne_zero]

/-- The root of a positive number lies between powers of two whose squares are hardly outside
    the range of the format. -/
theorem IsPositive.exists_log_sqrt (hx : IsPositive x) :
    ∃ (r : ℝ) (k : ℤ), value (Scalar.sqrt x) = .real r ∧ 2 ^ k ≤ r ∧ r < 2 ^ (k + 1) ∧
      (format α).minExponent ≤ 2 * (k + 1) ∧ 2 * k ≤ (format α).exponentBias := by
  obtain ⟨a, ha, hpos⟩ := hx
  obtain ⟨l, g, hbounds⟩ :=
    exists_rootBounds (F := format α) le_mantissaBits two_le_exponentBits
  obtain ⟨hrepresentable, hlt⟩ := representable ha
  have hleast := two_pow_minExponent_le hrepresentable hpos
  have hgreatest := le_greatest two_le_exponentBits hrepresentable hpos.le
    ((le_abs_self a).trans_lt hlt)
  have hroot {r : ℝ} (h : Nearest (format α) √a r) : l ≤ r ∧ r ≤ g :=
    ⟨hbounds.le_root a r hleast h, hbounds.root_le a r hpos.le hgreatest h⟩
  have hgg := hbounds.mul_le.trans_lt (greatest_lt_overflow (F := format α) two_le_exponentBits)
  have hone := hbounds.one_le
  have hlpos := hbounds.pos
  have hrounds := rounds_sqrt ha hpos
  generalize value (Scalar.sqrt x) = v at hrounds
  cases hrounds with
  | real h hr =>
    rename_i r
    obtain ⟨hl, hg⟩ := hroot h
    have hrpos := hlpos.trans_le hl
    have hlog := Int.zpow_log_le_self (R := ℝ) one_lt_two hrpos
    have hlog' := Int.lt_zpow_succ_log_self (R := ℝ) one_lt_two r
    push_cast at hlog hlog'
    generalize Int.log 2 r = k at hlog hlog'
    refine ⟨r, k, rfl, hlog, hlog', ?_, ?_⟩
    · have hlt : (2 : ℝ) ^ ((format α).minExponent - 1) < 2 ^ (2 * (k + 1)) := by
        calc (2 : ℝ) ^ ((format α).minExponent - 1) < l * l := hbounds.lt_mul
          _ ≤ 2 ^ (k + 1) * 2 ^ (k + 1) :=
            mul_self_le_mul_self hlpos.le (hl.trans hlog'.le)
          _ = 2 ^ (2 * (k + 1)) := (two_pow_mul_self _).symm
      have hexponent := (zpow_lt_zpow_iff_right₀ one_lt_two).1 hlt
      omega
    · have hlt : (2 : ℝ) ^ (2 * k) < 2 ^ (((format α).exponentBias + 1 : ℕ) : ℤ) := by
        calc (2 : ℝ) ^ (2 * k) = 2 ^ k * 2 ^ k := two_pow_mul_self _
          _ ≤ g * g := mul_self_le_mul_self (by positivity) (hlog.trans hg)
          _ < overflow (format α) := hgg
          _ = 2 ^ (((format α).exponentBias + 1 : ℕ) : ℤ) := (zpow_natCast 2 _).symm
      have hexponent := (zpow_lt_zpow_iff_right₀ one_lt_two).1 hlt
      omega
  | top h hr => exact absurd (hroot h).2 (not_le.2 (by nlinarith))
  | bot h hr => exact absurd (hroot h).1 (by linarith [overflow_pos (format α)])

theorem IsPositive.sqrt (hx : IsPositive x) : IsPositive (Scalar.sqrt x) := by
  obtain ⟨r, k, hr, hkr, -⟩ := hx.exists_log_sqrt
  exact ⟨r, hr, (by positivity : (0 : ℝ) < 2 ^ k).trans_le hkr⟩

theorem IsPositive.ne_zero (hx : IsPositive x) : ¬ (x == 0) = true :=
  fun h => hx.value_ne_zero ((beq_iff.1 h).1.trans value_zero)

theorem unpack_sqrt_zero {s : UnpackedFloat.Sign} (hx : unpack x = .zero s) :
    unpack (Scalar.sqrt x) = .zero s := by
  rw [LawfulBinary.unpack_sqrt, hx]
  exact stored_zero s

end Binary

/-! ### Norms -/

namespace Vec

section

variable {α : Type} [Scalar α]

/-- The vector over its norm. -/
def normalized (v : Vec α) : Vec α := scale (Scalar.recip (norm v)) v

theorem inner_self (v : Vec α) : inner v v = (v.toList.map fun x => x * x).foldl (· + ·) 0 := by
  rw [inner, sum, ← Array.foldl_toList, Array.toList_zipWith, List.zipWith_self]

theorem mem_squares_iff {v : Vec α} {y : α} : y ∈ v.toList.map (fun x => x * x) ↔
    ∃ j < v.size, v.getD j 0 * v.getD j 0 = y := by
  simp only [List.mem_map, Array.mem_toList_iff, Array.mem_iff_getElem,
    Array.getD_eq_getD_getElem?]
  constructor
  · rintro ⟨_, ⟨j, hj, rfl⟩, rfl⟩
    exact ⟨j, hj, by rw [Array.getElem?_eq_getElem hj]; rfl⟩
  · rintro ⟨j, hj, rfl⟩
    exact ⟨_, ⟨j, hj, rfl⟩, by rw [Array.getElem?_eq_getElem hj]; rfl⟩

theorem getD_of_size_le {v : Vec α} {j : ℕ} (hj : v.size ≤ j) : v.getD j 0 = 0 := by
  rw [Array.getD_eq_getD_getElem?, Array.getElem?_eq_none hj, Option.getD_none]

theorem getD_scale (a : α) (v : Vec α) (j : ℕ) :
    (scale a v).getD j 0 = if j < v.size then a * v.getD j 0 else 0 := by
  split
  · rename_i hj
    simp only [scale, Array.getD_eq_getD_getElem?, Array.getElem?_map, Array.getElem?_eq_getElem hj]
    rfl
  · rename_i hj
    exact getD_of_size_le (by simpa using hj)

end

variable {α : Type} [Binary α] [Scalar α] [ConvertingBinary α] {v : Vec α} {k : ℤ} {q : ℕ}

theorem lt_size_of_value_ne {j : ℕ} (h : value (v.getD j 0) ≠ .real 0) : j < v.size := by
  by_contra hj
  exact h (by rw [getD_of_size_le (not_lt.1 hj), value_zero])

theorem lt_size_of_atLeast {j : ℕ} {b : ℝ} (h : AtLeast b (v.getD j 0)) (hb : 0 < b) :
    j < v.size := by
  obtain ⟨a, ha, hba⟩ := h
  refine lt_size_of_value_ne fun h0 => (hb.trans_le hba).ne' ?_
  exact Extended.real_injective (ha.symm.trans h0)

variable (hv : v.Within (2 ^ k)) (hrange : SumRange (format α) (k + k) q)

include hv hrange

theorem within_square (j : ℕ) : Binary.Within (2 ^ (k + k)) (v.getD j 0 * v.getD j 0) := by
  have hmax := hrange.le_exponentBias
  exact (hv j).mul (hv j) hrange.minExponent_le (by omega)

theorem nonneg_square (j : ℕ) : AtLeast 0 (v.getD j 0 * v.getD j 0) := by
  obtain ⟨a, ha, -⟩ := hv j
  exact (within_square hv hrange j).atLeast_of_rounds (rounds_mul ha ha) (representable_zero _)
    (by simpa using overflow_pos _) (mul_self_nonneg a)

variable (hsize : v.size ≤ 2 ^ q)

include hsize

theorem within_inner : Binary.Within (2 ^ (k + k + q)) (inner v v) := by
  rw [inner_self]
  refine within_sum hrange (fun y hy => ?_) (by rwa [List.length_map, Array.length_toList])
  obtain ⟨j, -, rfl⟩ := mem_squares_iff.1 hy
  exact within_square hv hrange j

/-- The sum of squares is no less than any of them. -/
theorem atLeast_inner {b : ℝ} (hb : AtLeast b (0 : α) ∨ ∃ j < v.size,
    AtLeast b (v.getD j 0 * v.getD j 0)) : AtLeast b (inner v v) := by
  rw [inner_self]
  refine atLeast_sum hrange (fun y hy => ?_) (fun y hy => ?_)
    (by rwa [List.length_map, Array.length_toList]) ?_
  · obtain ⟨j, -, rfl⟩ := mem_squares_iff.1 hy
    exact within_square hv hrange j
  · obtain ⟨j, -, rfl⟩ := mem_squares_iff.1 hy
    exact nonneg_square hv hrange j
  · exact hb.imp_right fun ⟨j, hj, hterm⟩ => ⟨_, mem_squares_iff.2 ⟨j, hj, rfl⟩, hterm⟩

theorem norm_cases : value (norm v) = .real 0 ∨ IsPositive (inner v v) := by
  obtain ⟨a, ha, hnonneg⟩ := atLeast_inner hv hrange hsize (.inl ⟨0, value_zero, le_rfl⟩)
  rcases hnonneg.eq_or_lt with rfl | hpos
  · obtain ⟨s, hs⟩ := exists_unpack_zero ha
    exact .inl (congrArg ofUnpacked (unpack_sqrt_zero hs))
  · exact .inr ⟨a, ha, hpos⟩

theorem isPositive_inner {j : ℕ} {l : ℤ}
    (hl : AtLeast (2 ^ l) (v.getD j 0)) (hmin : (format α).minExponent ≤ l + l) :
    IsPositive (inner v v) := by
  have hmax := hrange.le_exponentBias
  have hlk := hl.le_of_within (hv j)
  have hsquare := (within_square hv hrange j).atLeast_two_pow_mul hl hl hmin (by omega)
  exact (atLeast_inner hv hrange hsize
    (.inr ⟨j, lt_size_of_atLeast hl (by positivity), hsquare⟩)).isPositive (by positivity)

/-- No component is much greater than the norm, because its square would be greater than the
    sum of squares. -/
theorem within_of_norm_lt {l : ℤ} {r : ℝ} (hr : value (norm v) = .real r) (hlt : r < 2 ^ l)
    (hmin : (format α).minExponent ≤ 2 * l) : v.Within (2 ^ l) := by
  intro j
  obtain ⟨a, ha, hak⟩ := hv j
  refine ⟨a, ha, not_lt.1 fun hgt => ?_⟩
  have hlk : l < k := (zpow_lt_zpow_iff_right₀ one_lt_two).1 (hgt.trans_le hak)
  have hmax := hrange.le_exponentBias
  have hnonpos := minExponent_nonpos (format α)
  have hpos : (0 : ℝ) < 2 ^ (2 * l) := by positivity
  have hoverflow {i : ℤ} (hi : i ≤ (format α).exponentBias) :
      |(2 : ℝ) ^ i| < overflow (format α) := by
    rw [abs_of_pos (by positivity)]
    exact two_pow_lt_overflow hi
  have hsquare : AtLeast (2 ^ (2 * l)) (v.getD j 0 * v.getD j 0) := by
    refine (within_square hv hrange j).atLeast_of_rounds (rounds_mul ha ha)
      (representable_two_pow hmin) (hoverflow (by omega)) ?_
    rw [two_pow_mul_self, ← abs_mul_abs_self a]
    exact mul_self_le_mul_self (by positivity) hgt.le
  have hj := lt_size_of_value_ne (v := v) (j := j) fun h => by
    rw [Extended.real_injective (ha.symm.trans h), abs_zero] at hgt
    exact hgt.not_gt (by positivity)
  obtain ⟨s, hs, hle⟩ := atLeast_inner hv hrange hsize (.inr ⟨j, hj, hsquare⟩)
  have hroot := (rounds_sqrt hs (hpos.trans_le hle)).ge
    (representable_two_pow (e := l) (by omega)) (hoverflow (by omega))
    (Real.le_sqrt_of_sq_le (by rwa [sq, ← two_pow_mul_self]))
  rw [show value (Scalar.sqrt (inner v v)) = .real r from hr, real_le_real] at hroot
  exact hlt.not_ge hroot

theorem norm_le {r : ℝ} (hpos : IsPositive (inner v v)) (hr : value (norm v) = .real r) :
    r ≤ 2 ^ (k + q) := by
  obtain ⟨s, hs, hspos⟩ := hpos
  obtain ⟨s', hs', hle⟩ := within_inner hv hrange hsize
  obtain rfl := Extended.real_injective (hs.symm.trans hs')
  have hmin := hrange.minExponent_le
  have hmax := hrange.le_exponentBias
  have hq := hrange.le_mantissaBits
  have hbits := ConvertingBinary.mantissaBits_le_exponentBias (α := α)
  have hnonpos := minExponent_nonpos (format α)
  have hroot : √s ≤ 2 ^ (k + q) := by
    refine Real.sqrt_le_iff.2 ⟨by positivity, (le_abs_self s).trans (hle.trans ?_)⟩
    rw [sq, ← two_pow_mul_self]
    exact zpow_le_zpow_right₀ one_le_two (by omega)
  obtain ⟨r', hr', hle'⟩ := (rounds_sqrt hs hspos).exists_abs_le
    (representable_two_pow (e := k + q) (by omega)) (two_pow_lt_overflow (by omega))
    (by rwa [abs_of_nonneg (Real.sqrt_nonneg s)])
  obtain rfl := Extended.real_injective (hr.symm.trans hr')
  exact (le_abs_self r).trans hle'

/-- The reciprocal of the norm is not small, and not much greater than that of a bound of the
    components. -/
theorem exists_within_recip (hpos : IsPositive (inner v v)) :
    ∃ i : ℤ, v.Within (2 ^ (i + 1)) ∧ Binary.Within (2 ^ (-i)) (Scalar.recip (norm v)) ∧
      AtLeast (2 ^ (-(k + q))) (Scalar.recip (norm v)) := by
  obtain ⟨r, i, hr, hir, hri, hmin, hmax⟩ := hpos.exists_log_sqrt
  change value (norm v) = .real r at hr
  have hrpos : 0 < r := (by positivity : (0 : ℝ) < 2 ^ i).trans_le hir
  have hle := norm_le hv hrange hsize hpos hr
  have hbits := ConvertingBinary.mantissaBits_le_exponentBias (α := α)
  have hdigits := le_mantissaBits (α := α)
  have hexponent := minExponent_eq (format α)
  have hkmax := hrange.le_exponentBias
  have hq := hrange.le_mantissaBits
  have hlower : (2 : ℝ) ^ (-(k + q)) ≤ 1 / r := by
    rw [zpow_neg, ← one_div]
    exact one_div_le_one_div_of_le hrpos hle
  have hupper : 1 / r ≤ 2 ^ (-i) := by
    rw [zpow_neg, ← one_div]
    exact one_div_le_one_div_of_le (by positivity) hir
  obtain ⟨s, hs, hslower, hsupper⟩ := (rounds_div value_one hr hrpos.ne').exists_between_two_pow
    hlower hupper (by omega) (by omega)
  have hspos : 0 < s := (by positivity : (0 : ℝ) < 2 ^ (-(k + q))).trans_le hslower
  exact ⟨i, within_of_norm_lt hv hrange hsize hr hri hmin, ⟨s, hs, by rwa [abs_of_pos hspos]⟩,
    ⟨s, hs, hslower⟩⟩

/-- Over its norm, a vector is within two, and what is large in it is large still. -/
theorem within_normalized (hpos : IsPositive (inner v v)) :
    (normalized v).Within (2 ^ (1 : ℤ)) ∧ (v.Nonneg → (normalized v).Nonneg) ∧
      ∀ (j : ℕ) (l : ℤ), AtLeast (2 ^ l) (v.getD j 0) → (format α).minExponent ≤ l - (k + q) →
        AtLeast (2 ^ (l - (k + q))) ((normalized v).getD j 0) := by
  have hbits := ConvertingBinary.mantissaBits_le_exponentBias (α := α)
  have hdigits := le_mantissaBits (α := α)
  have hexponent := minExponent_eq (format α)
  have hkmin := hrange.minExponent_le
  have hkmax := hrange.le_exponentBias
  obtain ⟨i, hvi, hwithin, hrecip⟩ := exists_within_recip hv hrange hsize hpos
  have hproduct (j : ℕ) : Binary.Within (2 ^ (1 : ℤ)) (Scalar.recip (norm v) * v.getD j 0) := by
    have h := hwithin.mul (hvi j) (by omega) (by omega)
    rwa [neg_add_cancel_left] at h
  refine ⟨fun j => ?_, fun hnonneg j => ?_, fun j l hl hmin => ?_⟩
  · rw [normalized, getD_scale]
    by_cases hj : j < v.size
    · rw [if_pos hj]
      exact hproduct j
    · rw [if_neg hj]
      exact within_zero (by positivity)
  · rw [normalized, getD_scale]
    by_cases hj : j < v.size
    · rw [if_pos hj]
      exact (hproduct j).nonneg_mul (hrecip.mono (by positivity)) (hnonneg j)
    · rw [if_neg hj]
      exact ⟨0, value_zero, le_rfl⟩
  · have hlk := hl.le_of_within (hv j)
    rw [normalized, getD_scale, if_pos (lt_size_of_atLeast hl (by positivity)), sub_eq_neg_add]
    exact (hproduct j).atLeast_two_pow_mul hrecip hl (by omega) (by omega)

end Vec

/-! ### Start vectors -/

namespace SpectralNorm

open Binary64

/-- A machine word of at most 53 digits is converted exactly. -/
theorem value_toFloat {n : UInt64} (hn : n.toNat < 2 ^ 53) : value n.toFloat = .real n.toNat := by
  rcases Nat.eq_zero_or_pos n.toNat with h0 | hpos
  · obtain rfl : n = 0 := UInt64.toNat_inj.1 h0
    have hzero : (0 : UInt64).toFloat = 0 := by decide +kernel
    rw [hzero, value_zero, h0, Nat.cast_zero]
  · obtain ⟨m, e, h, hv, -⟩ := exists_isNormal hpos hn.le
    exact (holds_toFloat h hpos hv).ofBinary64.trans (congrArg Extended.real hv)

/-- The components from which a start vector is made lie between one half and two. -/
theorem exists_value_startComponent (seed : UInt64) (j : ℕ) :
    ∃ a, value (startComponent seed j) = .real a ∧ 2 ^ (-1 : ℤ) ≤ a ∧ a ≤ 2 ^ (1 : ℤ) := by
  rw [startComponent]
  generalize ((seed <<< 32) ^^^ (UInt64.ofNat j + 1)) * 0x9E3779B97F4A7C15 = hash
  have hlt : (hash >>> 11).toNat < 2 ^ 53 := by
    have := hash.toNat_lt
    rw [UInt64.toNat_shiftRight, Nat.shiftRight_eq_div_pow]
    exact Nat.div_lt_of_lt_mul this
  change ∃ a, value (0.5 + (hash >>> 11).toFloat / 9007199254740992.0 : Float) = .real a ∧ _
  generalize hash >>> 11 = n at hlt ⊢
  have hhalf : Holds 0.5 (isNormal_twoPow (-53) (by decide) (by decide)) :=
    .of_eq_pack (by decide +kernel)
  have hdenom : Holds 9007199254740992.0 (isNormal_twoPow 1 (by decide) (by decide)) :=
    .of_eq_pack (by decide +kernel)
  have hhalf' : value (0.5 : Float) = .real (2 ^ (-1 : ℤ)) :=
    hhalf.ofBinary64.trans (congrArg Extended.real (by norm_num))
  have hdenom' : value (9007199254740992.0 : Float) = .real (2 ^ 53) :=
    hdenom.ofBinary64.trans (congrArg Extended.real (by norm_num))
  have hquot := rounds_div (value_toFloat hlt) hdenom' (by positivity)
  have hfraction : (0 : ℝ) ≤ (n.toNat : ℝ) / 2 ^ 53 ∧ (n.toNat : ℝ) / 2 ^ 53 ≤ 1 :=
    ⟨by positivity, (div_le_one (by positivity)).2 (by exact_mod_cast hlt.le)⟩
  obtain ⟨b, hb, hb1⟩ := hquot.exists_abs_le
    (by simpa using representable_two_pow (F := format Float) (e := 0) (by decide))
    (one_lt_overflow _) (by rw [abs_of_nonneg hfraction.1]; exact hfraction.2)
  have hb0 := hquot.ge (representable_zero _) (by simpa using overflow_pos _) hfraction.1
  rw [hb, real_le_real] at hb0
  rw [abs_of_nonneg hb0] at hb1
  refine (rounds_add hhalf' hb).exists_between_two_pow (le_add_of_nonneg_right hb0) ?_
    (by decide) (by decide)
  norm_num
  linarith

/-- The vector that is normalised to give a start vector. -/
def startRaw (α : Type) [Scalar α] (n : ℕ) (seed : UInt64) : Vec α :=
  Array.ofFn fun j : Fin n => Scalar.ofBinary64 (startComponent seed j)

theorem getD_startRaw (α : Type) [Scalar α] (n : ℕ) (seed : UInt64) (j : ℕ) :
    (startRaw α n seed).getD j 0 =
      if j < n then Scalar.ofBinary64 (startComponent seed j) else 0 := by
  rw [startRaw, Array.getD_eq_getD_getElem?, Array.getElem?_ofFn]
  split <;> rfl

variable {α : Type} [Binary α] [Scalar α] [ConvertingBinary α]

theorem exists_value_startRaw {n j : ℕ} (hj : j < n) (seed : UInt64) :
    ∃ a, value ((startRaw α n seed).getD j 0) = .real a ∧ 2 ^ (-1 : ℤ) ≤ a ∧ a ≤ 2 ^ (1 : ℤ) := by
  have hdigits := le_mantissaBits (α := α)
  have hbits := ConvertingBinary.mantissaBits_le_exponentBias (α := α)
  have hexponent := minExponent_eq (format α)
  obtain ⟨a, ha, hle, hle'⟩ := exists_value_startComponent seed j
  rw [getD_startRaw, if_pos hj]
  exact (ConvertingBinary.rounds_ofBinary64 ha).exists_between_two_pow hle hle' (by omega)
    (by omega)

theorem within_startRaw (n : ℕ) (seed : UInt64) : (startRaw α n seed).Within (2 ^ (1 : ℤ)) := by
  intro j
  by_cases hj : j < n
  · obtain ⟨a, ha, hle, hle'⟩ := exists_value_startRaw (α := α) hj seed
    exact ⟨a, ha, by rwa [abs_of_pos ((by positivity : (0 : ℝ) < 2 ^ (-1 : ℤ)).trans_le hle)]⟩
  · rw [getD_startRaw, if_neg hj]
    exact within_zero (by positivity)

end SpectralNorm

end HybridGradient
