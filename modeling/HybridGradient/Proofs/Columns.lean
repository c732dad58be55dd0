import HybridGradient.Proofs.Absorption
import HybridGradient.Proofs.Binary64
import HybridGradient.Proofs.DecimalText

/-!
# Columns

The columns of a table are as wide as the numbers that are expected in them. In scientific form
every number of the two formats fits into the column that is made for it, except for negative
numbers so small that their exponent has three digits: of sign and third digit, there is room for
one. Numbers with a fixed number of places must not be too large. A row whose numbers are like
this ends where the header does, and so do its words.

* `Binary.length_scientific_le`, `Binary.length_fixed_le`: the widths of numbers;
* `Record.Presentable`: the records whose numbers fit into their columns;
* `Record.row_columns`: the words of a row, and where they end.
-/

namespace HybridGradient

open Extended Float.Model Float.Model.UnpackedFloat Rounding Text

namespace Binary

variable {α : Type} [Scalar α] [Binary α] [LawfulBinary α]

/-! ### Scientific form -/

/-- The finite numbers of both formats lie between two powers of ten, whose exponents have three
    digits. -/
theorem bounds_of_unpack (hformat : format α = .binary64 ∨ format α = .binary32) {x : α} {s : Sign}
    {m : ℕ} {e : ℤ} {hm : 0 < m} (hx : unpack x = .finite s m e hm) :
    (10 : ℝ) ^ (-537 : ℤ) ≤ m * 2 ^ e ∧ (m : ℝ) * 2 ^ e < 10 ^ (512 : ℤ) := by
  have hfits := fits x
  rw [hx] at hfits
  have hmin : (-1074 : ℤ) ≤ (format α).minExponent := by
    rcases hformat with h | h <;> rw [h] <;> decide
  have hbias : (format α).exponentBias + 1 ≤ 1024 := by
    rcases hformat with h | h <;> rw [h] <;> decide
  -- The square of two is less than ten.
  have hten (k : ℕ) : (2 : ℝ) ^ (2 * k) ≤ 10 ^ k := by
    rw [pow_mul]
    exact pow_le_pow_left₀ (by norm_num) (by norm_num) k
  constructor
  · have hone : (1 : ℝ) ≤ m := by exact_mod_cast hm
    calc (10 : ℝ) ^ (-537 : ℤ) = (10 ^ 537)⁻¹ := zpow_neg _ _
      _ ≤ (2 ^ (2 * 537))⁻¹ := inv_anti₀ (by positivity) (hten 537)
      _ = 2 ^ (-1074 : ℤ) := (zpow_neg (2 : ℝ) 1074).symm
      _ ≤ 2 ^ e := zpow_le_zpow_right₀ one_le_two (hmin.trans hfits.1.minExponent_le)
      _ ≤ m * 2 ^ e := le_mul_of_one_le_left (by positivity) hone
  · calc (m : ℝ) * 2 ^ e < overflow (format α) :=
          (hfits.1.value_lt_overflow_iff two_le_exponentBits).2 hfits.2
      _ ≤ 2 ^ (2 * 512) := pow_le_pow_right₀ one_le_two hbias
      _ ≤ 10 ^ 512 := hten 512
      _ = 10 ^ (512 : ℤ) := (zpow_natCast _ _).symm

/-- If a number is negative, the exponent of its scientific form has no more than two digits. -/
def HasRoomForSign (x : α) : Prop :=
  ∀ a, value x = .real a → a < 0 → (10 : ℝ) ^ (-99 : ℤ) ≤ -a

theorem hasRoomForSign_of_nonneg {x : α} (h : 0 ≤ x) : HasRoomForSign x := by
  intro a ha hneg
  rw [le_iff, ha, value_zero, real_le_real] at h
  exact absurd h (not_le.2 hneg)

omit [Scalar α] [LawfulBinary α] in
theorem hasRoomForSign_of_isUndefined {x : α} (h : IsUndefined x) : HasRoomForSign x := by
  intro a ha
  rw [h] at ha
  exact nomatch ha

/-- The width of a magnitude in scientific form, if it lies between two powers of ten: a negative
    exponent has up to `k` digits then, and another one up to `k + 1`. -/
theorem length_magnitude_le {m : ℕ} {e : ℤ} (hm : 0 < m) (places : ℕ) {k : ℕ} (hk : 0 < k)
    {low high : ℤ} (hlow : (10 : ℝ) ^ low ≤ m * 2 ^ e) (hhigh : (m : ℝ) * 2 ^ e < 10 ^ high)
    (hlow' : -(10 ^ k : ℕ) < low) (hhigh' : high < (10 ^ (k + 1) : ℕ)) :
    (Decimal.ofFraction (binaryNum m e) (binaryDen e) places).scientificText.length ≤
      places + k + 4 := by
  obtain ⟨hden, hvalue⟩ := binary_value m e
  have hnum : 0 < binaryNum m e := binaryNum_pos hm e
  rw [← hvalue] at hlow hhigh
  have hfirst := le_leadingExponent hnum hden hlow
  have hlast := leadingExponent_lt hnum hden hhigh
  -- Rounding may carry into the next power of ten.
  have hexponent := Decimal.exponent_ofFraction (binaryNum m e) (binaryDen e) places
  exact Decimal.length_scientificText_le places (Decimal.digits_ofFraction_lt places hnum hden) hk
    (by omega) (by omega)

/-- In scientific form, the numbers of both formats need seven characters besides the places: the
    first digit, the point, the mark of the exponent, and four more for the signs and for the digits
    of the exponent. -/
theorem length_scientific_le (hformat : format α = .binary64 ∨ format α = .binary32) (places : ℕ)
    {x : α} (hx : HasRoomForSign x) : (scientific places x).length ≤ places + 7 := by
  rw [scientific]
  rcases hu : unpack x with s | _ | s | ⟨s, m, e, hm⟩
  case notANumber =>
    rw [unpackedText]
    exact le_add_left (by decide)
  case infinity =>
    have hsign := length_signText_le s
    simp only [unpackedText, String.length_ofList, List.length_append, List.length_cons,
      List.length_nil]
    omega
  case zero =>
    have hsign := length_signText_le s
    have hdigits := Decimal.length_pointed_le (List.replicate (places + 1) '0')
    have hexponent := Decimal.length_exponentText_le (e := 0) one_pos (by decide) (by decide)
    rw [List.length_replicate] at hdigits
    simp only [unpackedText, String.length_ofList, List.length_append]
    omega
  case finite =>
    obtain ⟨hlow, hhigh⟩ := bounds_of_unpack hformat hu
    rw [unpackedText, String.length_ofList, List.length_append]
    cases s with
    | positive =>
      have hlength := length_magnitude_le hm places (k := 3) (by decide) hlow hhigh (by decide)
        (by decide)
      rw [signText, List.length_nil]
      omega
    | negative =>
      have hvalue : value x = .real (-(m * 2 ^ e)) := by
        rw [value, hu, ofUnpacked_finite]
        exact congrArg Extended.real (neg_one_mul _)
      have hpos : (0 : ℝ) < m * 2 ^ e := lt_of_lt_of_le (by positivity) hlow
      have hlow' : (10 : ℝ) ^ (-99 : ℤ) ≤ m * 2 ^ e := by
        simpa using hx _ hvalue (neg_lt_zero.2 hpos)
      have hlength := length_magnitude_le hm places (k := 2) (by decide) hlow' hhigh (by decide)
        (by decide)
      rw [signText, List.length_singleton]
      omega

/-! ### Places -/

/-- The width of a number with a fixed number of places, if it is at most a natural number that
    has as many places itself. -/
theorem length_fixed_le {x bound : α} {n places k : ℕ} (hpos : 0 ≤ x) (hle : x ≤ bound)
    (hbound : value bound = .real n) (hn : n * 10 ^ places < 10 ^ k) (hk : places + 2 ≤ k) :
    (fixed places x).length ≤ k + 1 := by
  rw [le_iff, value_zero] at hpos
  rw [le_iff, hbound] at hle
  rw [value] at hpos hle
  rw [fixed]
  rcases hu : unpack x with s | _ | s | ⟨s, m, e, hm⟩
  case notANumber =>
    rw [hu] at hpos
    exact absurd hpos (not_le_undefined _)
  case infinity =>
    rw [hu] at hpos hle
    cases s with
    | positive => exact absurd hle (not_top_le_real _)
    | negative => exact absurd hpos (not_real_le_bot _)
  case zero =>
    -- Zero may have a sign, but then it has a single digit before the point.
    have hsign := length_signText_le s
    have hplaces := Decimal.length_placesText_le places (n := 0) (k := places + 1)
      (Nat.pow_pos (by decide)) (Nat.lt_succ_self _)
    simp only [unpackedText, String.length_ofList, List.length_append]
    omega
  case finite =>
    rw [hu, ofUnpacked_finite, real_le_real] at hpos hle
    have hvalue : (0 : ℝ) < m * 2 ^ e := by positivity
    cases s with
    | negative =>
      rw [unit, neg_one_mul] at hpos
      exact absurd hpos (not_le.2 (neg_lt_zero.2 hvalue))
    | positive =>
      obtain ⟨hden, hfraction⟩ := binary_value m e
      rw [unit, one_mul, ← hfraction, div_le_iff₀ (Nat.cast_pos.2 hden)] at hle
      have hnum : binaryNum m e ≤ n * binaryDen e := by exact_mod_cast hle
      have hround :
          roundQuotient (binaryNum m e * 10 ^ places) (binaryDen e) ≤ n * 10 ^ places := by
        refine roundQuotient_le hden ?_
        calc binaryNum m e * 10 ^ places ≤ n * binaryDen e * 10 ^ places :=
              Nat.mul_le_mul_right _ hnum
          _ = n * 10 ^ places * binaryDen e := by ring
      rw [unpackedText, signText, List.nil_append, String.length_ofList, Nat.pow_eq]
      exact Decimal.length_placesText_le places (hround.trans_lt hn) (by omega)

-- A sign and an exponent of three digits are one character too many.
example : (scientific 3 (-1e-100 : Float)).length = 11 := by decide +kernel

end Binary

/-! ### Records -/

/-- The digits of a natural number are one word. -/
theorem Text.isWord_toString (n : ℕ) : IsWord (toString n) := by
  change IsWord n.repr
  rw [Nat.repr_eq_ofList_toDigits]
  exact isWord_ofList Nat.toDigits_ne_nil (Decimal.visible_digitsOf n)

theorem Row.isWord_of_mem_headings : ∀ cell ∈ headings, IsWord cell := by
  rw [headings]
  decide

/-- The names of the columns fit into them. -/
theorem Row.staysIn_headings : List.Forall₂ StaysIn widths headings := by
  have hlength : List.Forall₂ (fun w cell => cell.length ≤ w) widths headings := by
    simp only [widths, headings, List.forall₂_cons, List.Forall₂.nil, and_true]
    decide
  exact List.forall₂_iff_zip.2 ⟨rfl, fun h =>
    ⟨isWord_of_mem_headings _ (List.of_mem_zip h).2, List.forall₂_zip hlength h⟩⟩

namespace Record

open Binary Row

variable {α : Type} [Scalar α] [Binary α]

/-- The numbers of a record are not too large for a fixed number of places, and no exponent of three
    digits stands behind a sign. -/
structure Presentable (r : Record α) : Prop where
  iteration : r.iteration < 10 ^ 8
  passes : 0 ≤ r.passes ∧ r.passes ≤ 99999999
  elapsed : 0 ≤ r.elapsed ∧ r.elapsed ≤ 99999
  error : 0 ≤ r.error ∨ IsUndefined r.error
  primalObjective : HasRoomForSign r.primalObjective
  dualObjective : HasRoomForSign r.dualObjective
  primalResidual : 0 ≤ r.primalResidual ∨ IsUndefined r.primalResidual
  dualResidual : 0 ≤ r.dualResidual ∨ IsUndefined r.dualResidual
  gap : 0 ≤ r.gap ∨ IsUndefined r.gap

omit [Scalar α] in
theorem length_cells (r : Record α) : r.cells.length = 9 := rfl

omit [Scalar α] in
/-- Every cell of a record is one word. -/
theorem isWord_of_mem_cells (r : Record α) {cell : String} (h : cell ∈ r.cells) : IsWord cell := by
  simp only [cells, List.mem_cons, List.not_mem_nil, or_false] at h
  rcases h with rfl | rfl | rfl | rfl | rfl | rfl | rfl | rfl | rfl
  · exact isWord_toString _
  · exact isWord_fixed 1 _
  · exact isWord_fixed 3 _
  · exact isWord_scientific 2 _
  · exact isWord_scientific 3 _
  · exact isWord_scientific 3 _
  · exact isWord_scientific 2 _
  · exact isWord_scientific 2 _
  · exact isWord_scientific 2 _

variable [LawfulBinary α]

theorem staysIn_scientific (hformat : format α = .binary64 ∨ format α = .binary32) (places : ℕ)
    {x : α} (hx : HasRoomForSign x) : StaysIn (places + 7) (scientific places x) :=
  ⟨isWord_scientific places x, length_scientific_le hformat places hx⟩

theorem staysIn_magnitude (hformat : format α = .binary64 ∨ format α = .binary32) {x : α}
    (hx : 0 ≤ x ∨ IsUndefined x) : StaysIn 9 (scientific 2 x) :=
  staysIn_scientific hformat 2 (hx.elim hasRoomForSign_of_nonneg hasRoomForSign_of_isUndefined)

theorem staysIn_iteration {n : ℕ} (hn : n < 10 ^ 8) : StaysIn 8 (toString n) :=
  ⟨isWord_toString n, (Nat.length_repr_le_iff (by decide)).2 hn⟩

theorem staysIn_fixed {x bound : Float} {m : ℕ} {e : ℤ} {h : Binary64.IsNormal m e}
    (hbound : Binary64.Holds bound h) {n places k : ℕ} (hn : (m : ℝ) * 2 ^ e = n)
    (hx : 0 ≤ x ∧ x ≤ bound) (hk : n * 10 ^ places < 10 ^ k) (hplaces : places + 2 ≤ k) :
    StaysIn (k + 1) (fixed places x) := by
  have hvalue : value bound = .real n := hbound.ofBinary64.trans (congrArg Extended.real hn)
  exact ⟨isWord_fixed places x, length_fixed_le hx.1 hx.2 hvalue hk hplaces⟩

theorem staysIn_passes {x : Float} (hx : 0 ≤ x ∧ x ≤ 99999999) : StaysIn 10 (fixed 1 x) := by
  have hbound : Binary64.Holds 99999999 (m := 99999999 * 2 ^ 26) (e := -26)
      ⟨by decide, by decide, by decide, by decide⟩ := .of_eq_pack (by decide +kernel)
  exact staysIn_fixed hbound (n := 99999999) (by norm_num) hx (by decide) (by decide)

theorem staysIn_elapsed {x : Float} (hx : 0 ≤ x ∧ x ≤ 99999) : StaysIn 9 (fixed 3 x) := by
  have hbound : Binary64.Holds 99999 (m := 99999 * 2 ^ 36) (e := -36)
      ⟨by decide, by decide, by decide, by decide⟩ := .of_eq_pack (by decide +kernel)
  exact staysIn_fixed hbound (n := 99999) (by norm_num) hx (by decide) (by decide)

/-- The cells of a record that can be presented fit into their columns. -/
theorem Presentable.staysIn {r : Record α} (h : r.Presentable)
    (hformat : format α = .binary64 ∨ format α = .binary32) :
    List.Forall₂ StaysIn widths r.cells :=
  .cons (staysIn_iteration h.iteration) <|
  .cons (staysIn_passes h.passes) <|
  .cons (staysIn_elapsed h.elapsed) <|
  .cons (staysIn_magnitude hformat h.error) <|
  .cons (staysIn_scientific hformat 3 h.primalObjective) <|
  .cons (staysIn_scientific hformat 3 h.dualObjective) <|
  .cons (staysIn_magnitude hformat h.primalResidual) <|
  .cons (staysIn_magnitude hformat h.dualResidual) <|
  .cons (staysIn_magnitude hformat h.gap) .nil

/-- The words of a row are the nine cells of its record, whatever these are, and the first of them
    is the number of the iteration. If the record can be presented, the row is as long as the
    header, and its words end where those of the header do. -/
theorem row_columns (hformat : format α = .binary64 ∨ format α = .binary32) (r : Record α) :
    '\n' ∉ r.row.toList ∧ (∀ c ∈ r.row.toList, isBlank c = true → c = ' ') ∧
      words r.row = r.cells ∧ (words r.row).length = 9 ∧ (words header).length = 9 ∧
      (words r.row).head? = some (toString r.iteration) ∧
      (r.Presentable → r.row.length = header.length ∧
        wordEnds r.row.toList = wordEnds header.toList ∧ (wordEnds header.toList).length = 9) := by
  have hspace : ∀ c ∈ r.row.toList, isBlank c = true → c = ' ' := fun c hc =>
    eq_space_of_mem_ofCells (fun _ => r.isWord_of_mem_cells) hc
  have hwords : words r.row = r.cells :=
    words_ofCells (Nat.le_refl 9) fun _ => r.isWord_of_mem_cells
  have hheader : words header = headings :=
    words_ofCells (Nat.le_refl 9) isWord_of_mem_headings
  refine ⟨fun hbreak => ?_, hspace, hwords, ?_, ?_, ?_, fun h => ?_⟩
  · exact absurd (hspace _ hbreak (by decide)) (by decide)
  · rw [hwords, length_cells]
  · rw [hheader]
    rfl
  · rw [hwords]
    rfl
  · have hstays := h.staysIn hformat
    have hends : wordEnds header.toList = columnEnds widths := wordEnds_ofCells staysIn_headings
    refine ⟨?_, ?_, ?_⟩
    · exact (length_ofCells hstays).trans (length_ofCells staysIn_headings).symm
    · exact (wordEnds_ofCells hstays).trans hends.symm
    · rw [hends]
      rfl

/-- A record with numbers that take all the room there is, and with what is not finite. -/
def extreme : Record Float where
  iteration := 99999999
  passes := 99999999
  elapsed := 99999
  error := 5e-324
  primalObjective := -1e-99
  dualObjective := -0.0
  gap := 0 / 0
  primalResidual := 1 / 0
  dualResidual := 1e-300
  primalMove := 0
  dualMove := 0

theorem presentable_extreme : extreme.Presentable where
  iteration := by decide
  passes := by decide +kernel
  elapsed := by decide +kernel
  error := .inl (by decide +kernel)
  primalObjective := by
    have hmodel : (-1e-99 : Float).toModel =
        .pack (.finite .negative 4925250774549310 (-381) (by decide)) := by decide +kernel
    have hunpack : unpack extreme.primalObjective =
        .finite .negative 4925250774549310 (-381) (by decide) := unpack_of_toModel hmodel
    intro a ha _
    rw [value, hunpack, ofUnpacked_finite] at ha
    obtain rfl := real_injective ha
    rw [unit, neg_one_mul, neg_neg, zpow_neg, zpow_neg, ← div_eq_mul_inv,
      le_div_iff₀ (by positivity), inv_mul_le_iff₀ (by positivity)]
    have hle : 2 ^ 381 ≤ 10 ^ 99 * 4925250774549310 := by
      calc 2 ^ 381 = (2 ^ 127) ^ 3 := pow_mul 2 127 3
        _ ≤ 10 ^ 99 * 4925250774549310 := by decide
    exact_mod_cast hle
  dualObjective := hasRoomForSign_of_nonneg (by decide +kernel)
  primalResidual := .inl (by decide +kernel)
  dualResidual := .inl (by decide +kernel)
  gap := .inr (isUndefined_iff.2 rfl)

/-- The row of such a record, and where its words end. -/
theorem wordEnds_row_extreme :
    extreme.Presentable ∧ extreme.row =
      "99999999 99999999.0 99999.000 4.94e-324 -1.000e-99   -0.000e0       inf 1.00e-300       NaN" ∧
    words extreme.row = extreme.cells ∧ extreme.row.length = 91 ∧
    wordEnds extreme.row.toList = [7, 18, 28, 38, 49, 60, 70, 80, 90] := by
  obtain ⟨-, -, hwords, -, -, -, hcolumns⟩ := row_columns (.inl rfl) extreme
  obtain ⟨hlength, hends, -⟩ := hcolumns presentable_extreme
  refine ⟨presentable_extreme, by decide +kernel, hwords, hlength.trans ?_, hends.trans ?_⟩
  · exact length_ofCells staysIn_headings
  · exact wordEnds_ofCells staysIn_headings

end Record

end HybridGradient
