import HybridGradient.Proofs.Rounding
import Mathlib

/-!
# Packing

A rounded number is packed to be stored, and read again by unpacking. A canonical number comes
back as it was if it is not too large, and as an infinity if it is. What is read is compared by
its value.

* `Rounding.unpack_pack_finite`, `Rounding.unpack_pack_overflow`: what is stored of a rounded
  number;
* `Rounding.lt_eq_true_iff`, `Rounding.le_eq_true_iff`, `Rounding.beq_eq_true_iff`: comparisons
  in terms of values;
* `Rounding.Rounds`: the values that a real number may be rounded to, among them infinities;
* `Rounding.rounds_stored`: what is stored of a nearest number is one of them.
-/

namespace HybridGradient

open Extended Float.Model Float.Model.UnpackedFloat

namespace Rounding

variable {F : Format}

/-! ### Packing -/

/-- The greatest exponent that a format can store. -/
def maxExponent (F : Format) : ℤ := F.exponentBias - F.mantissaBitsWithoutImplicit

theorem two_pow_exponentBits (F : Format) : 2 ^ F.exponentBits = 2 * F.exponentBias + 2 := by
  have hpos : 1 ≤ 2 ^ (F.exponentBits - 1) := Nat.one_le_two_pow
  have hsucc : F.exponentBits = F.exponentBits - 1 + 1 := (Nat.succ_pred_eq_of_pos F.he).symm
  rw [Format.exponentBias]
  conv_lhs => rw [hsucc, pow_succ]
  omega

theorem one_le_exponentBias (hF : 2 ≤ F.exponentBits) : 1 ≤ F.exponentBias := by
  have hfour : 2 ^ 2 ≤ 2 ^ F.exponentBits := Nat.pow_le_pow_right two_pos hF
  have hcapacity := two_pow_exponentBits F
  omega

theorem minExponent_eq (F : Format) :
    F.minExponent = 1 - F.exponentBias - F.mantissaBitsWithoutImplicit := by
  have hpos : 1 ≤ 2 ^ (F.exponentBits - 1) := Nat.one_le_two_pow
  rw [Format.minExponent, Format.exponentBias, Format.mantissaBits, Nat.cast_sub hpos]
  push_cast
  ring

/-- What is read of a number after it was stored. -/
def stored (F : Format) (u : UnpackedFloat) : UnpackedFloat :=
  UnpackedFloat.unpack F (UnpackedFloat.pack F u)

@[simp] theorem stored_notANumber : stored F .notANumber = .notANumber := unpack_packedNaN

@[simp] theorem stored_zero (s : Sign) : stored F (.zero s) = .zero s := unpack_packedZero

theorem unpack_packedInfinity (s : Sign) :
    UnpackedFloat.unpack F (packedInfinity F s) = .infinity s := by
  simp [UnpackedFloat.unpack, packedInfinity]

@[simp] theorem stored_infinity (s : Sign) : stored F (.infinity s) = .infinity s :=
  unpack_packedInfinity s

/-- A leading digit in front of others. -/
theorem toNat_leading_append {k : ℕ} (v : BitVec k) : (1#1 ++ v).toNat = 2 ^ k + v.toNat := by
  rw [BitVec.toNat_append, ← Nat.shiftLeft_add_eq_or_of_lt v.isLt, Nat.shiftLeft_eq]
  exact congrArg (· + v.toNat) (Nat.one_mul _)

theorem ofNat_ne {k b : ℕ} {v : BitVec k} (hb : b < 2 ^ k) (hv : b ≠ v.toNat) :
    BitVec.ofNat k b ≠ v := by
  rintro rfl
  rw [BitVec.toNat_ofNat, Nat.mod_eq_of_lt hb] at hv
  exact hv rfl

theorem toNat_neg_one_exponent : (-1#F.exponentBits).toNat = 2 ^ F.exponentBits - 1 := by
  rw [BitVec.neg_one_eq_allOnes, BitVec.toNat_allOnes]

/-- What is stored is the exponent with the bias added. -/
theorem exists_biased {e : ℤ} (hmin : F.minExponent ≤ e) (hmax : e ≤ maxExponent F) :
    ∃ b : ℕ, e + F.exponentBias + F.mantissaBitsWithoutImplicit = b ∧ 0 < b ∧
      ¬ 2 ^ F.exponentBits ≤ b + 1 := by
  have hcapacity := two_pow_exponentBits F
  rw [minExponent_eq] at hmin
  rw [maxExponent] at hmax
  exact ⟨_, (Int.toNat_of_nonneg (by omega)).symm, by omega, by omega⟩

/-- A number without the leading digit has the least exponent, which is stored as zero. -/
theorem unpack_pack_subnormal {m : ℕ} (hm : 0 < m) (hlt : m < 2 ^ F.mantissaBitsWithoutImplicit)
    (hmax : F.minExponent ≤ maxExponent F) (s : Sign) :
    stored F (.finite s m F.minExponent hm) = .finite s m F.minExponent hm := by
  obtain ⟨b, hb, -, hfits⟩ := exists_biased le_rfl hmax
  have hlog := (Nat.log2_lt hm.ne').2 hlt
  have hsignificand : (BitVec.ofNat F.mantissaBitsWithoutImplicit m).toNat = m := by
    rw [BitVec.toNat_ofNat, Nat.mod_eq_of_lt hlt]
  have hne : BitVec.ofNat F.mantissaBitsWithoutImplicit m ≠ 0#_ :=
    ofNat_ne hlt (by simpa using hm.ne')
  have hzero : 0#F.exponentBits ≠ -1#_ :=
    ofNat_ne (Nat.two_pow_pos _) (by have hones := toNat_neg_one_exponent (F := F); omega)
  have hbits : F.mantissaBits = 1 + F.mantissaBitsWithoutImplicit := rfl
  rw [stored, UnpackedFloat.pack]
  simp only [hb, Int.toNat_natCast, if_neg hfits]
  rw [if_neg (by omega)]
  simp only [UnpackedFloat.unpack, unpackExponent_packComponents, unpackMantissa_packComponents,
    unpackSign_packComponents, Sign.ofBitVec_toBitVec, if_neg hzero, dif_neg hne, hsignificand]
  refine (UnpackedFloat.finite.injEq ..).mpr ⟨rfl, rfl, ?_⟩
  rw [minExponent_eq, BitVec.toNat_ofNat, Nat.zero_mod]
  push_cast
  ring

/-- The leading digit of a number is not stored. -/
theorem unpack_pack_normal {m : ℕ} {e : ℤ} (hm : 0 < m)
    (hfull : 2 ^ F.mantissaBitsWithoutImplicit ≤ m) (hlt : m < 2 ^ F.mantissaBits)
    (hmin : F.minExponent ≤ e) (hmax : e ≤ maxExponent F) (s : Sign) :
    stored F (.finite s m e hm) = .finite s m e hm := by
  obtain ⟨b, hb, hpos, hfits⟩ := exists_biased hmin hmax
  have hones := toNat_neg_one_exponent (F := F)
  have hbits : F.mantissaBits = 1 + F.mantissaBitsWithoutImplicit := rfl
  rw [two_pow_mantissaBits] at hlt
  have hlog : m.log2 = F.mantissaBitsWithoutImplicit :=
    (Nat.log2_eq_iff hm.ne').2 ⟨hfull, by rw [pow_succ]; omega⟩
  have hexponent : (BitVec.ofNat F.exponentBits b).toNat = b := by
    rw [BitVec.toNat_ofNat, Nat.mod_eq_of_lt (by omega)]
  have hsignificand : (1#1 ++ BitVec.ofNat F.mantissaBitsWithoutImplicit m).toNat = m := by
    rw [toNat_leading_append, BitVec.toNat_ofNat, Nat.mod_eq_sub_mod hfull,
      Nat.mod_eq_of_lt (by omega)]
    omega
  have hzero : BitVec.ofNat F.exponentBits b ≠ 0#_ :=
    ofNat_ne (by omega) (by rw [BitVec.toNat_ofNat, Nat.zero_mod]; omega)
  have hnan : BitVec.ofNat F.exponentBits b ≠ -1#_ := ofNat_ne (by omega) (by omega)
  rw [stored, UnpackedFloat.pack]
  simp only [hb, Int.toNat_natCast, if_neg hfits]
  rw [if_pos (by omega)]
  simp only [UnpackedFloat.unpack, unpackExponent_packComponents, unpackMantissa_packComponents,
    unpackSign_packComponents, Sign.ofBitVec_toBitVec, if_neg hnan, if_neg hzero, hexponent,
    hsignificand]
  refine (UnpackedFloat.finite.injEq ..).mpr ⟨rfl, rfl, ?_⟩
  omega

/-- A canonical number with an exponent that can be stored is read as it was. -/
theorem unpack_pack_finite {m : ℕ} {e : ℤ} (hm : 0 < m) (h : Canonical F m e)
    (hmax : e ≤ maxExponent F) (s : Sign) :
    stored F (.finite s m e hm) = .finite s m e hm := by
  rcases Nat.lt_or_ge m (2 ^ F.mantissaBitsWithoutImplicit) with hsub | hfull
  · obtain rfl := h.full.resolve_right (not_le.2 hsub)
    exact unpack_pack_subnormal hm hsub hmax s
  · exact unpack_pack_normal hm hfull h.lt h.minExponent_le hmax s

/-- A number that is too large is stored as infinity. -/
theorem unpack_pack_overflow {m : ℕ} {e : ℤ} (hm : 0 < m) (hmax : maxExponent F < e) (s : Sign) :
    stored F (.finite s m e hm) = .infinity s := by
  have hcapacity := two_pow_exponentBits F
  rw [maxExponent] at hmax
  rw [stored, UnpackedFloat.pack]
  rw [if_pos (by omega), unpack_packedInfinity]

/-- A number in the form in which a format is read. -/
def Fits (F : Format) : UnpackedFloat → Prop
  | .finite _ m e _ => Canonical F m e ∧ e ≤ maxExponent F
  | _ => True

theorem stored_of_fits {u : UnpackedFloat} (h : Fits F u) : stored F u = u := by
  cases u with
  | notANumber => exact stored_notANumber
  | infinity s => exact stored_infinity s
  | zero s => exact stored_zero s
  | finite s m e hm => exact unpack_pack_finite hm h.1 h.2 s

/-- What is read fits. -/
theorem fits_unpack (hF : 2 ≤ F.exponentBits) (b : BitVec F.numBits) :
    Fits F (UnpackedFloat.unpack F b) := by
  have hcapacity := two_pow_exponentBits F
  have hbias := one_le_exponentBias hF
  have hmin := minExponent_eq F
  have hbits := two_pow_mantissaBits F
  fun_cases UnpackedFloat.unpack with
  | case1 => trivial
  | case2 => trivial
  | case3 => trivial
  | case4 mantissa exponent value sign' sign hnan hzero hne =>
    have hlt := mantissa.isLt
    have hvalue : value = 0 - (F.exponentBias + F.mantissaBitsWithoutImplicit) := by
      simp [value, hzero]
    refine ⟨⟨by omega, by omega, .inl (by omega)⟩, ?_⟩
    rw [maxExponent]
    omega
  | case5 mantissa exponent value sign' sign hnan hzero =>
    have hlt := mantissa.isLt
    have hexponent := exponent.isLt
    have hpos : exponent.toNat ≠ 0 := fun h0 => hzero (BitVec.eq_of_toNat_eq (by simpa using h0))
    have hones : exponent.toNat ≠ 2 ^ F.exponentBits - 1 := fun h1 => hnan (BitVec.eq_of_toNat_eq
      (by rw [h1, BitVec.neg_one_eq_allOnes, BitVec.toNat_allOnes]))
    have hvalue : value = exponent.toNat - (F.exponentBias + F.mantissaBitsWithoutImplicit) := rfl
    have hleading := toNat_leading_append mantissa
    refine ⟨⟨by omega, by omega, .inr (by omega)⟩, ?_⟩
    rw [maxExponent]
    omega

/-! ### Order -/

/-- Exponents are compared before significands, which is how the values are ordered. -/
theorem compare_canonical {m₁ m₂ : ℕ} {e₁ e₂ : ℤ} (h₁ : Canonical F m₁ e₁)
    (h₂ : Canonical F m₂ e₂) :
    match (compare e₁ e₂).then (compare m₁ m₂) with
    | .lt => (m₁ : ℝ) * 2 ^ e₁ < m₂ * 2 ^ e₂
    | .eq => (m₁ : ℝ) * 2 ^ e₁ = m₂ * 2 ^ e₂
    | .gt => (m₂ : ℝ) * 2 ^ e₂ < m₁ * 2 ^ e₁ := by
  rcases lt_trichotomy e₁ e₂ with he | rfl | he
  · rw [Int.compare_eq_lt.2 he]
    exact (h₁.value_lt_iff h₂).2 (.inl he)
  · rw [Int.compare_eq_eq.2 rfl]
    rcases lt_trichotomy m₁ m₂ with hm | rfl | hm
    · rw [Nat.compare_eq_lt.2 hm]
      exact (h₁.value_lt_iff h₂).2 (.inr ⟨rfl, hm⟩)
    · rw [Nat.compare_eq_eq.2 rfl]
      rfl
    · rw [Nat.compare_eq_gt.2 hm]
      exact (h₂.value_lt_iff h₁).2 (.inr ⟨rfl, hm⟩)
  · rw [Int.compare_eq_gt.2 he]
    exact (h₂.value_lt_iff h₁).2 (.inl he)

/-- The comparison of two numbers says how their values are ordered. -/
theorem compare_spec {u v : UnpackedFloat} (hu : Fits F u) (hv : Fits F v) :
    match u.compare v with
    | some .lt => ofUnpacked u < ofUnpacked v
    | some .eq => ofUnpacked u = ofUnpacked v ∧ ofUnpacked u ≠ undefined
    | some .gt => ofUnpacked v < ofUnpacked u
    | none => ofUnpacked u = undefined ∨ ofUnpacked v = undefined := by
  have hpos {m : ℕ} (e : ℤ) (hm : 0 < m) :
      real 0 < ofUnpacked (.finite .positive m e hm) ∧
        ofUnpacked (.finite .negative m e hm) < real 0 := by
    have hvalue : (0 : ℝ) < m * 2 ^ e := by positivity
    simpa [ofUnpacked, Sign.apply] using hvalue
  rcases u with (_ | _) | _ | s | ⟨_ | _, m₁, e₁, hm₁⟩ <;>
    rcases v with (_ | _) | _ | s' | ⟨_ | _, m₂, e₂, hm₂⟩
  -- Numbers of one sign are compared by their magnitudes, all others by their kinds.
  case finite.positive.finite.positive | finite.negative.finite.negative =>
    have hspec := compare_canonical hu.1 hv.1
    simp only [UnpackedFloat.compare, ofUnpacked, Sign.apply]
    generalize (compare e₁ e₂).then (compare m₁ m₂) = o at hspec
    cases o with
    | lt => simpa using hspec
    | eq => exact ⟨by simpa using hspec, nofun⟩
    | gt => simpa using hspec
  case finite.negative.finite.positive =>
    exact real_lt_real.2 ((real_lt_real.1 (hpos e₁ hm₁).2).trans (real_lt_real.1 (hpos e₂ hm₂).1))
  case finite.positive.finite.negative =>
    exact real_lt_real.2 ((real_lt_real.1 (hpos e₂ hm₂).2).trans (real_lt_real.1 (hpos e₁ hm₁).1))
  case zero.finite.positive => exact (hpos e₂ hm₂).1
  case zero.finite.negative => exact (hpos e₂ hm₂).2
  case finite.positive.zero => exact (hpos e₁ hm₁).1
  case finite.negative.zero => exact (hpos e₁ hm₁).2
  all_goals first
    | exact trivial
    | exact ⟨rfl, nofun⟩
    | exact .inl rfl
    | exact .inr rfl

theorem lt_eq_true_iff {u v : UnpackedFloat} (hu : Fits F u) (hv : Fits F v) :
    u.lt v = true ↔ ofUnpacked u < ofUnpacked v := by
  have hspec := compare_spec hu hv
  rw [UnpackedFloat.lt, beq_iff_eq]
  generalize u.compare v = o at hspec
  rcases o with _ | _ | _ | _
  · refine iff_of_false nofun ?_
    rcases hspec with hspec | hspec
    · rw [hspec]
      exact not_undefined_lt _
    · rw [hspec]
      exact not_lt_undefined _
  · exact iff_of_true rfl hspec
  · refine iff_of_false nofun ?_
    rw [hspec.1]
    exact not_lt_self _
  · exact iff_of_false nofun (lt_asymm hspec)

theorem le_eq_true_iff {u v : UnpackedFloat} (hu : Fits F u) (hv : Fits F v) :
    u.le v = true ↔ ofUnpacked u ≤ ofUnpacked v := by
  have hspec := compare_spec hu hv
  rw [UnpackedFloat.le]
  generalize u.compare v = o at hspec
  rcases o with _ | _ | _ | _
  · refine iff_of_false nofun ?_
    rcases hspec with hspec | hspec
    · rw [hspec]
      exact not_undefined_le _
    · rw [hspec]
      exact not_le_undefined _
  · exact iff_of_true rfl (.inl hspec)
  · exact iff_of_true rfl (.inr hspec)
  · exact iff_of_false nofun (not_le_of_lt hspec)

theorem beq_eq_true_iff {u v : UnpackedFloat} (hu : Fits F u) (hv : Fits F v) :
    u.beq v = true ↔ ofUnpacked u = ofUnpacked v ∧ ofUnpacked u ≠ undefined := by
  have hspec := compare_spec hu hv
  rw [UnpackedFloat.beq, beq_iff_eq]
  generalize u.compare v = o at hspec
  rcases o with _ | _ | _ | _
  · refine iff_of_false nofun ?_
    rintro ⟨heq, hne⟩
    exact hspec.elim hne fun h => hne (heq.trans h)
  · refine iff_of_false nofun fun h => ?_
    rw [h.1] at hspec
    exact not_lt_self _ hspec
  · exact iff_of_true rfl hspec
  · refine iff_of_false nofun fun h => ?_
    rw [h.1] at hspec
    exact not_lt_self _ hspec

/-! ### Rounded values -/

/-- The least power of two that is too large for a format. -/
def overflow (F : Format) : ℝ := 2 ^ (F.exponentBias + 1)

theorem overflow_pos (F : Format) : 0 < overflow F := by
  rw [overflow]
  positivity

theorem one_lt_overflow (F : Format) : 1 < overflow F :=
  one_lt_pow₀ one_lt_two (Nat.succ_ne_zero _)

/-- A canonical number can be stored if and only if it is not too large. -/
theorem Canonical.value_lt_overflow_iff (hF : 2 ≤ F.exponentBits) {m : ℕ} {e : ℤ}
    (h : Canonical F m e) : (m : ℝ) * 2 ^ e < overflow F ↔ e ≤ maxExponent F := by
  have hmantissa : F.mantissaBits = 1 + F.mantissaBitsWithoutImplicit := rfl
  rw [overflow, ← zpow_natCast, maxExponent]
  constructor
  · contrapose!
    intro he
    have hne : e ≠ F.minExponent := by
      have hbias := one_le_exponentBias hF
      rw [minExponent_eq]
      omega
    have hfull : (2 : ℝ) ^ (F.mantissaBitsWithoutImplicit : ℤ) ≤ m := by
      rw [zpow_natCast]
      exact_mod_cast h.full.resolve_left hne
    calc (2 : ℝ) ^ ((F.exponentBias + 1 : ℕ) : ℤ)
        ≤ 2 ^ ((F.mantissaBitsWithoutImplicit : ℤ) + e) :=
          zpow_le_zpow_right₀ one_le_two (by push_cast; omega)
      _ = 2 ^ (F.mantissaBitsWithoutImplicit : ℤ) * 2 ^ e := zpow_add₀ two_ne_zero _ _
      _ ≤ m * 2 ^ e := mul_le_mul_of_nonneg_right hfull (by positivity)
  · intro he
    have hlt : (m : ℝ) < 2 ^ (F.mantissaBits : ℤ) := by
      rw [zpow_natCast]
      exact_mod_cast h.lt
    calc (m : ℝ) * 2 ^ e < 2 ^ (F.mantissaBits : ℤ) * 2 ^ e :=
          mul_lt_mul_of_pos_right hlt (by positivity)
      _ = 2 ^ ((F.mantissaBits : ℤ) + e) := (zpow_add₀ two_ne_zero _ _).symm
      _ ≤ 2 ^ ((F.exponentBias + 1 : ℕ) : ℤ) :=
          zpow_le_zpow_right₀ one_le_two (by push_cast; omega)

/-- A value to which a real number may be rounded: a nearest number of the format, or an
    infinity if that is too large. -/
inductive Rounds (F : Format) (x : ℝ) : Extended → Prop
  | real {r : ℝ} (h : Nearest F x r) (hr : |r| < overflow F) : Rounds F x (.real r)
  | top {r : ℝ} (h : Nearest F x r) (hr : overflow F ≤ r) : Rounds F x .top
  | bot {r : ℝ} (h : Nearest F x r) (hr : r ≤ -overflow F) : Rounds F x .bot

theorem Rounds.neg {x : ℝ} {a : Extended} (h : Rounds F x a) : Rounds F (-x) (-a) := by
  cases h with
  | real h hr => exact .real h.neg (by rwa [abs_neg])
  | top h hr => exact .bot h.neg (neg_le_neg hr)
  | bot h hr => exact .top h.neg (le_neg_of_le_neg hr)

theorem rounds_zero (F : Format) : Rounds F 0 (.real 0) :=
  .real ⟨representable_zero F, fun s _ => by simp⟩ (by simpa using overflow_pos F)

theorem Rounds.le_top {x : ℝ} {a : Extended} (h : Rounds F x a) : a ≤ .top := by
  cases h with
  | real h hr => exact real_le_top _
  | top h hr => exact .inr ⟨rfl, nofun⟩
  | bot h hr => exact .inl trivial

theorem Rounds.bot_le {x : ℝ} {a : Extended} (h : Rounds F x a) : .bot ≤ a := by
  cases h with
  | real h hr => exact bot_le_real _
  | top h hr => exact .inl trivial
  | bot h hr => exact .inr ⟨rfl, nofun⟩

/-- What the format represents is not rounded. -/
theorem Rounds.eq_real {x : ℝ} {a : Extended} (h : Rounds F x a) (hx : Representable F x)
    (hlt : |x| < overflow F) : a = .real x := by
  rw [abs_lt] at hlt
  cases h with
  | real h hr => rw [h.eq_self hx]
  | top h hr => exact absurd (h.eq_self hx) (hlt.2.trans_le hr).ne'
  | bot h hr => exact absurd (h.eq_self hx) (hr.trans_lt hlt.1).ne

/-- What is above a number of the format is rounded to a value above it. -/
theorem Rounds.ge {x s : ℝ} {a : Extended} (h : Rounds F x a) (hs : Representable F s)
    (hlt : |s| < overflow F) (hle : s ≤ x) : .real s ≤ a := by
  rw [abs_lt] at hlt
  cases h with
  | real h hr => exact real_le_real.2 (h.le hs hle)
  | top h hr => exact real_le_top _
  | bot h hr => exact absurd (h.le hs hle) (by linarith)

/-- The magnitude of a rounded number is the rounded magnitude. -/
theorem Rounds.abs {x : ℝ} {a : Extended} (h : Rounds F x a) :
    Rounds F |x| (Extended.abs a) := by
  have hnonneg {x : ℝ} {a : Extended} (h : Rounds F x a) (hx : 0 ≤ x) :
      Rounds F x (Extended.abs a) := by
    cases h with
    | real h hr =>
      rw [Extended.abs, abs_of_nonneg (h.nonneg hx)]
      exact .real h hr
    | top h hr => exact .top h hr
    | bot h hr => exact absurd (h.nonneg hx) (by linarith [overflow_pos F])
  rcases le_total 0 x with hx | hx
  · rw [abs_of_nonneg hx]
    exact hnonneg h hx
  · have hneg : Extended.abs (-a) = Extended.abs a := by
      cases a with
      | real r => exact congrArg Extended.real (abs_neg r)
      | top | bot | undefined => rfl
    rw [abs_of_nonpos hx, ← hneg]
    exact hnonneg h.neg (neg_nonneg.2 hx)

/-- Rounding is monotone, and has the greatest numbers come to the infinities. -/
theorem Rounds.mono {x y : ℝ} {a b : Extended} (ha : Rounds F x a) (hb : Rounds F y b)
    (hlt : x < y) : a ≤ b := by
  have hpos := overflow_pos F
  cases ha with
  | real ha hra =>
    cases hb with
    | real hb hrb => exact real_le_real.2 (ha.mono hb hlt)
    | top hb hrb => exact real_le_top _
    | bot hb hrb => exact absurd (ha.mono hb hlt) (by linarith [(abs_lt.1 hra).1])
  | top ha hra =>
    cases hb with
    | real hb hrb => exact absurd (ha.mono hb hlt) (by linarith [(abs_lt.1 hrb).2])
    | top hb hrb => exact .inr ⟨rfl, nofun⟩
    | bot hb hrb => exact absurd (ha.mono hb hlt) (by linarith)
  | bot ha hra =>
    cases hb with
    | real hb hrb => exact bot_le_real _
    | top hb hrb => exact .inl trivial
    | bot hb hrb => exact .inr ⟨rfl, nofun⟩

/-- The factor that a sign stands for. -/
def unit : Sign → ℝ
  | .negative => -1
  | .positive => 1

theorem ofUnpacked_finite (s : Sign) {m : ℕ} (e : ℤ) (hm : 0 < m) :
    ofUnpacked (.finite s m e hm) = .real (unit s * (m * 2 ^ e)) := by
  cases s <;> simp [ofUnpacked, unit, Sign.apply]

theorem unit_mul (s s' : Sign) : unit (s * s') = unit s * unit s' := by
  cases s with
  | negative =>
    cases s' with
    | negative => exact (neg_mul_neg (1 : ℝ) 1 |>.trans (mul_one 1)).symm
    | positive => exact (mul_one (-1 : ℝ)).symm
  | positive =>
    cases s' with
    | negative | positive => exact (one_mul _).symm

theorem unit_div (s s' : Sign) : unit (s / s') = unit s / unit s' := by
  cases s with
  | negative =>
    cases s' with
    | negative => exact (div_self (neg_ne_zero.2 one_ne_zero)).symm
    | positive => exact (div_one (-1 : ℝ)).symm
  | positive =>
    cases s' with
    | negative => exact (div_neg (1 : ℝ) |>.trans (congrArg Neg.neg (div_one 1))).symm
    | positive => exact (div_one (1 : ℝ)).symm

theorem unit_ne_zero (s : Sign) : unit s ≠ 0 := by
  cases s with
  | negative => exact neg_ne_zero.2 one_ne_zero
  | positive => exact one_ne_zero

theorem signed_of_pos (s : Sign) {m : ℕ} (e : ℤ) (hm : 0 < m) :
    signed s m e = .finite s m e hm := dif_neg hm.ne'

/-- The value of what is stored of a canonical number. -/
theorem ofUnpacked_stored (hF : 2 ≤ F.exponentBits) {m : ℕ} {e : ℤ} (h : Canonical F m e)
    (s : Sign) : ofUnpacked (stored F (signed s m e)) =
      if (m : ℝ) * 2 ^ e < overflow F then .real (unit s * (m * 2 ^ e))
      else ofUnpacked (.infinity s) := by
  rw [signed]
  split
  · rename_i hm
    rw [hm, Nat.cast_zero, zero_mul, mul_zero, if_pos (overflow_pos F), stored_zero]
    rfl
  · rename_i hm
    by_cases hlt : (m : ℝ) * 2 ^ e < overflow F
    · rw [if_pos hlt, unpack_pack_finite _ h ((h.value_lt_overflow_iff hF).1 hlt),
        ofUnpacked_finite]
    · rw [if_neg hlt, unpack_pack_overflow _
        (not_le.1 (mt (h.value_lt_overflow_iff hF).2 hlt))]

/-- What is stored of a rounded number is a value to which the number may be rounded. -/
theorem rounds_stored (hF : 2 ≤ F.exponentBits) {m : ℕ} {e : ℤ} {x : ℝ} (h : Canonical F m e)
    (hx : Nearest F x (m * 2 ^ e)) (s : Sign) :
    Rounds F (unit s * x) (ofUnpacked (stored F (signed s m e))) := by
  have hnonneg := Canonical.value_nonneg m e
  rw [ofUnpacked_stored hF h]
  split
  · rename_i hlt
    have hreal : Rounds F x (.real (m * 2 ^ e)) := .real hx (by rwa [abs_of_nonneg hnonneg])
    cases s with
    | positive => simpa [unit] using hreal
    | negative => simpa [unit] using hreal.neg
  · rename_i hge
    have htop : Rounds F x .top := .top hx (not_lt.1 hge)
    cases s with
    | positive => exact (one_mul x).symm ▸ htop
    | negative => exact (neg_one_mul x).symm ▸ htop.neg

/-- The form in which a format has the number one. -/
theorem ofUnpacked_stored_one (hF : 2 ≤ F.exponentBits) :
    ofUnpacked (stored F (signed .positive (2 ^ F.mantissaBitsWithoutImplicit)
      (-F.mantissaBitsWithoutImplicit))) = .real 1 := by
  have hbias := one_le_exponentBias hF
  have hcanonical : Canonical F (2 ^ F.mantissaBitsWithoutImplicit)
      (-F.mantissaBitsWithoutImplicit) := by
    refine ⟨?_, ?_, .inr le_rfl⟩
    · rw [two_pow_mantissaBits]
      exact lt_two_mul_self (Nat.two_pow_pos _)
    · rw [minExponent_eq]
      omega
  have hvalue : ((2 ^ F.mantissaBitsWithoutImplicit : ℕ) : ℝ) *
      2 ^ (-F.mantissaBitsWithoutImplicit : ℤ) = 1 := by
    rw [zpow_neg, zpow_natCast, Nat.cast_pow, Nat.cast_two]
    exact mul_inv_cancel₀ (by positivity)
  rw [ofUnpacked_stored hF hcanonical, hvalue, if_pos (one_lt_overflow F), unit, one_mul]

end Rounding

end HybridGradient
