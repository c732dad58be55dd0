import HybridGradient.Proofs.Balancing
import HybridGradient.Proofs.EntryOrder
import HybridGradient.Proofs.Lines

/-!
# The magnitudes of the coefficients

In exact arithmetic, factors leave a positive number of each coefficient that is not zero. The
range of a line consists of the least and the greatest of the numbers that are left in it, and
its factor is what a pass holds to be typical of the two, raised where it is too small.

* `MagnitudeRange.exists_foldl_insert`: the range of positive numbers;
* `SparseMatrix.magnitudes`, `SparseMatrix.ratio`: the magnitudes of the coefficients that are
  not zero, and the greatest in proportion to the least;
* `Factors.left`: what factors leave of a coefficient;
* `Balance.middle`, `Factors.Positive.exists_lineFactor`: the factor of a line.
-/

namespace HybridGradient

open Extended

variable {m n : ℕ}

/-! ### Ranges of real numbers -/

namespace Extended

theorem not_real_bne_self (y : ℝ) : ¬ (real y == real y) = false := fun h =>
  Bool.noConfusion (h.symm.trans (real_beq_real.2 rfl))

theorem lesser_real (x y : ℝ) : Scalar.lesser (real x) (real y) = real (min x y) := by
  rw [Scalar.lesser, if_congr (or_iff_left (not_real_bne_self y)) rfl rfl]
  rcases lt_or_ge x y with h | h
  · rw [if_pos (real_lt_real.2 h), min_eq_left h.le]
  · rw [if_neg (mt real_lt_real.1 h.not_gt), min_eq_right h]

theorem greater_real (x y : ℝ) : Scalar.greater (real x) (real y) = real (max x y) := by
  rw [Scalar.greater, if_congr (or_iff_left (not_real_bne_self y)) rfl rfl]
  rcases lt_or_ge y x with h | h
  · rw [if_pos (real_lt_real.2 h), max_eq_left h.le]
  · rw [if_neg (mt real_lt_real.1 h.not_gt), max_eq_right h]

end Extended

namespace MagnitudeRange

theorem insert_empty_real {a : ℝ} (ha : 0 < a) :
    (empty : MagnitudeRange Extended).insert (real a) = ⟨real a, real a⟩ := by
  have hleast : Scalar.lesser (Scalar.infinity : Extended) (real a) = real a := by
    rw [Scalar.lesser, if_congr (or_iff_left (not_real_bne_self a)) rfl rfl]
    exact if_neg id
  have hgreatest : Scalar.greater (0 : Extended) (real a) = real a := by
    rw [zero_eq, greater_real, max_eq_right ha.le]
  exact congrArg₂ mk hleast hgreatest

/-- The range that collects positive numbers consists of the least and the greatest of them. -/
theorem exists_foldl_insert {ms : List Extended} (hms : ∀ v ∈ ms, ∃ a, 0 < a ∧ v = real a)
    (hne : ms ≠ []) :
    ∃ lo hi, ms.foldl insert empty = ⟨real lo, real hi⟩ ∧ IsLeast {a | real a ∈ ms} lo ∧
      IsGreatest {a | real a ∈ ms} hi := by
  induction ms using List.reverseRecOn with
  | nil => exact absurd rfl hne
  | append_singleton ms v ih =>
    obtain ⟨b, hb, rfl⟩ := hms v (by simp)
    have hset : {a | real a ∈ ms ++ [real b]} = Insert.insert b {a | real a ∈ ms} := by
      ext a
      simp [or_comm]
    rw [hset, List.foldl_append, List.foldl_cons, List.foldl_nil]
    rcases eq_or_ne ms [] with rfl | hms'
    · refine ⟨b, b, insert_empty_real hb, ?_⟩
      simp
    · obtain ⟨lo, hi, heq, hlo, hhi⟩ :=
        ih (fun v hv => hms v (List.mem_append_left _ hv)) hms'
      refine ⟨min lo b, max hi b, ?_, ?_, ?_⟩
      · rw [heq, insert, lesser_real, greater_real]
      · rw [min_comm]
        exact hlo.insert b
      · rw [max_comm]
        exact hhi.insert b

end MagnitudeRange

/-! ### Magnitudes -/

namespace SparseMatrix

variable (A : SparseMatrix Extended)

/-- An entry with a coefficient that is not zero. -/
structure Nonzero (e : Entry Extended) : Prop where
  mem : e ∈ A.entries
  value_ne : e.value ≠ 0

/-- The magnitudes of the coefficients in a line that are not zero. -/
def magnitudesIn (line : Entry Extended → ℕ) (i : ℕ) : Set ℝ :=
  {a | 0 < a ∧ ∃ e ∈ A.entries, line e = i ∧ Scalar.abs e.value = real a}

/-- The magnitudes of all coefficients that are not zero, as those of a single line. -/
def magnitudes : Set ℝ := A.magnitudesIn (fun _ => 0) 0

/-- The greatest of them in proportion to the least one. -/
noncomputable def ratio : ℝ := sSup A.magnitudes / sInf A.magnitudes

variable {A}

theorem ratio_eq {lo hi : ℝ} (hlo : IsLeast A.magnitudes lo) (hhi : IsGreatest A.magnitudes hi) :
    A.ratio = hi / lo := by
  rw [ratio, hlo.csInf_eq, hhi.csSup_eq]

end SparseMatrix

namespace Factors

variable {A : SparseMatrix Extended} {f f' : Factors Extended} {r : Fin A.rows → ℝ}
  {v : Fin A.cols → ℝ} {e e' : Entry Extended} {ρ least : ℝ}

/-- What factors leave of the magnitude of an entry. -/
noncomputable def left (f : Factors Extended) (e : Entry Extended) : ℝ := (f.magnitude e).toReal

/-- What they leave of the coefficients in a line that are not zero. -/
def leftIn (f : Factors Extended) (A : SparseMatrix Extended) (line : Entry Extended → ℕ)
    (i : ℕ) : Set ℝ :=
  {a | ∃ e, A.Nonzero e ∧ line e = i ∧ f.left e = a}

theorem entry_real (hA : ∀ e ∈ A.entries, Scalar.isFinite e.value = true) (he : e ∈ A.entries) :
    e.Real A.rows A.cols :=
  ⟨(A.inBounds e he).1, (A.inBounds e he).2, hA e he⟩

namespace Positive

theorem magnitude (h : f.Positive r v) (he : e.Real A.rows A.cols) :
    f.magnitude e =
      real |e.value.toReal / (r ⟨e.row, he.row⟩ * v ⟨e.col, he.col⟩)| := by
  rw [Factors.magnitude, h.scaledValue he, abs_real]

variable (hA : ∀ e ∈ A.entries, Scalar.isFinite e.value = true)

include hA

theorem magnitude_eq_left (h : f.Positive r v) (he : e ∈ A.entries) :
    f.magnitude e = real (f.left e) := by
  rw [left, h.magnitude (entry_real hA he), toReal_real]

theorem left_pos (h : f.Positive r v) (he : A.Nonzero e) : 0 < f.left e := by
  have hreal := entry_real hA he.mem
  have hvalue : e.value.toReal ≠ 0 := fun h0 => he.value_ne (by
    rw [eq_real_toReal hreal.value, h0, zero_eq])
  rw [left, h.magnitude hreal, toReal_real]
  exact abs_pos.2 (div_ne_zero hvalue (mul_pos (h.row_pos _) (h.col_pos _)).ne')

/-- Only what is left of coefficients that are not zero counts. -/
theorem pos_magnitude_iff (h : f.Positive r v) (he : e ∈ A.entries) :
    0 < f.magnitude e ↔ A.Nonzero e := by
  constructor
  · intro hpos
    refine ⟨he, fun hzero => ?_⟩
    rw [h.magnitude (entry_real hA he), hzero, zero_eq, toReal_real, zero_div, abs_zero,
      real_lt_real] at hpos
    exact lt_irrefl 0 hpos
  · intro hne
    rw [h.magnitude_eq_left hA he]
    exact real_lt_real.2 (h.left_pos hA hne)

/-- More factors divide what was left before. -/
theorem left_eq_div (h : f.Positive r v) (he : A.Nonzero e) {s t : ℝ} (hs : 0 < s) (ht : 0 < t)
    (hrow : f'.rows.getD e.row 1 = f.rows.getD e.row 1 * real s)
    (hcol : f'.cols.getD e.col 1 = f.cols.getD e.col 1 * real t) :
    f'.left e = f.left e / (s * t) := by
  have hreal := entry_real hA he.mem
  have hr := h.row_pos ⟨e.row, hreal.row⟩
  have hv := h.col_pos ⟨e.col, hreal.col⟩
  rw [h.rows, Vec.getD_real r ⟨e.row, hreal.row⟩, mul_real] at hrow
  rw [h.cols, Vec.getD_real v ⟨e.col, hreal.col⟩, mul_real] at hcol
  have hmagnitude : f'.magnitude e = real |e.value.toReal /
      (r ⟨e.row, hreal.row⟩ * s * (v ⟨e.col, hreal.col⟩ * t))| := by
    rw [Factors.magnitude, Factors.scaledValue, hrow, hcol, mul_real]
    conv_lhs => rw [eq_real_toReal hreal.value]
    rw [div_real _ (mul_pos (mul_pos hr hs) (mul_pos hv ht)).ne', abs_real]
  rw [left, left, hmagnitude, h.magnitude hreal, toReal_real, toReal_real, mul_mul_mul_comm,
    ← div_div, abs_div, abs_of_pos (mul_pos hs ht)]

end Positive

end Factors

/-! ### The factor of a line -/

namespace Balance

/-- What is typical of a line, of which the range is known. -/
def typical {α : Type} [Scalar α] : Balance → MagnitudeRange α → α
  | geometricMean, range => Scalar.sqrt (range.least * range.greatest)
  | largest, range => Scalar.sqrt range.greatest

/-- What is typical of a line of real numbers. -/
noncomputable def middle : Balance → ℝ → ℝ → ℝ
  | geometricMean, lo, hi => √(lo * hi)
  | largest, _, hi => √hi

variable {lo hi : ℝ}

theorem middle_pos (b : Balance) (hlo : 0 < lo) (hhi : 0 < hi) : 0 < b.middle lo hi := by
  cases b with
  | geometricMean => exact Real.sqrt_pos.2 (mul_pos hlo hhi)
  | largest => exact Real.sqrt_pos.2 hhi

theorem typical_real (b : Balance) (hlo : 0 < lo) (hhi : 0 < hi) :
    b.typical ⟨real lo, real hi⟩ = real (b.middle lo hi) := by
  cases b with
  | geometricMean => exact sqrt_real (mul_pos hlo hhi).le
  | largest => exact sqrt_real hhi.le

/-- The factor is what is typical, raised to the least factor allowed. -/
theorem factor_eq_max (b : Balance) (hlo : 0 < lo) (hhi : 0 < hi) (least : ℝ) :
    b.factor (real least) ⟨real lo, real hi⟩ = real (max (b.middle lo hi) least) := by
  have htypical : b.factor (real least) ⟨real lo, real hi⟩ =
      if Scalar.isFinite (b.typical ⟨real lo, real hi⟩) ∧ 0 < b.typical ⟨real lo, real hi⟩ then
        Scalar.greater (b.typical ⟨real lo, real hi⟩) (real least) else 1 := by
    cases b with
    | geometricMean => rfl
    | largest => rfl
  rw [htypical, b.typical_real hlo hhi,
    if_pos ⟨isFinite_real _, zero_lt_real.2 (b.middle_pos hlo hhi)⟩, greater_real]

end Balance

namespace Factors

variable {A : SparseMatrix Extended} {f : Factors Extended} {r : Fin A.rows → ℝ}
  {v : Fin A.cols → ℝ} {e : Entry Extended} (hA : ∀ e ∈ A.entries, Scalar.isFinite e.value = true)

include hA

/-- The range of a line with a coefficient that is not zero consists of the least and the
    greatest number that is left there. -/
theorem Positive.exists_range (h : f.Positive r v) (line : Entry Extended → ℕ)
    (he : A.Nonzero e) :
    ∃ lo hi, (MagnitudeRange.inLine line f.magnitude A.entries (line e)).foldl
        MagnitudeRange.insert .empty = ⟨real lo, real hi⟩ ∧
      IsLeast (f.leftIn A line (line e)) lo ∧ IsGreatest (f.leftIn A line (line e)) hi := by
  have hset : f.leftIn A line (line e) =
      {a | real a ∈ MagnitudeRange.inLine line f.magnitude A.entries (line e)} := by
    ext a
    rw [Set.mem_ofPred_eq, MagnitudeRange.mem_inLine]
    constructor
    · rintro ⟨g, hg, hline, rfl⟩
      exact ⟨g, hg.mem, hline, (h.pos_magnitude_iff hA hg.mem).2 hg, h.magnitude_eq_left hA hg.mem⟩
    · rintro ⟨g, hg, hline, hpos, heq⟩
      exact ⟨g, (h.pos_magnitude_iff hA hg).1 hpos, hline, by rw [left, heq, toReal_real]⟩
  rw [hset]
  refine MagnitudeRange.exists_foldl_insert (fun a ha => ?_) fun hnil => ?_
  · obtain ⟨g, hg, -, hpos, rfl⟩ := MagnitudeRange.mem_inLine.1 ha
    exact ⟨f.left g, h.left_pos hA ((h.pos_magnitude_iff hA hg).1 hpos),
      h.magnitude_eq_left hA hg⟩
  · have hmem : f.magnitude e ∈ MagnitudeRange.inLine line f.magnitude A.entries (line e) :=
      MagnitudeRange.mem_inLine.2
        ⟨e, he.mem, rfl, (h.pos_magnitude_iff hA he.mem).2 he, rfl⟩
    rw [hnil] at hmem
    exact List.not_mem_nil hmem

theorem Positive.pos_of_mem_leftIn (h : f.Positive r v) {line : Entry Extended → ℕ} {i : ℕ}
    {a : ℝ} (ha : a ∈ f.leftIn A line i) : 0 < a := by
  obtain ⟨e, he, -, rfl⟩ := ha
  exact h.left_pos hA he

/-- The factor of a line with a coefficient that is not zero. -/
theorem Positive.exists_lineFactor (h : f.Positive r v) (b : Balance) (least : ℝ)
    (line : Entry Extended → ℕ) (he : A.Nonzero e) :
    ∃ lo hi, IsLeast (f.leftIn A line (line e)) lo ∧ IsGreatest (f.leftIn A line (line e)) hi ∧
      f.lineFactor b (real least) line A (line e) = real (max (b.middle lo hi) least) := by
  obtain ⟨lo, hi, hrange, hlo, hhi⟩ := h.exists_range hA line he
  refine ⟨lo, hi, hlo, hhi, ?_⟩
  rw [lineFactor, hrange, b.factor_eq_max (h.pos_of_mem_leftIn hA hlo.1)
    (h.pos_of_mem_leftIn hA hhi.1)]

end Factors

end HybridGradient
