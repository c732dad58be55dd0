import HybridGradient.Proofs.Lines
import HybridGradient.Proofs.LogScale

/-!
# Factors of moderate matrices

In a matrix whose coefficients are neither very large nor very small, balancing keeps away from
the ends of the format. A pass moves what is left of the coefficients by no more than half of
the range that they have, and does not widen that range, apart from rounding. So the logarithms
of the factors grow in proportion to the number of passes.

* `SparseMatrix.Moderate`: the coefficients are zero or have small logarithms;
* `MagnitudeRange.Spans`: the range of a line is that of its magnitudes;
* `Factors.Tame`: bounds for the factors and for what they leave of the coefficients;
* `Factors.Tame.meanPass`, `Factors.Tame.largestPass`: what a pass makes of these bounds;
* `Factors.isPositive_balancing`: the factors of a moderate matrix are positive numbers;
* `Factors.exists_scaledValue`: its coefficients stay moderate.
-/

namespace HybridGradient

open Extended Float.Model Rounding Binary Real

/-! ### Ranges -/

namespace MagnitudeRange

variable {α : Type} [Scalar α] [Binary α]

/-- The range of some magnitudes. -/
structure Spans (r : MagnitudeRange α) (ms : List α) : Prop where
  least : IsPositive r.least
  greatest : IsPositive r.greatest
  le : ∀ v ∈ ms, lg r.least ≤ lg v ∧ lg v ≤ lg r.greatest
  least_mem : ∃ v ∈ ms, lg r.least = lg v
  greatest_mem : ∃ v ∈ ms, lg r.greatest = lg v

variable [LawfulBinary α] {r : MagnitudeRange α} {ms : List α} {v : α}

/-- The first magnitude replaces both extremes of an empty line. -/
theorem insert_empty (hv : IsPositive v) : empty.insert v = ⟨v, v⟩ := by
  obtain ⟨a, ha, hpos⟩ := hv
  have hleast : Scalar.lesser Scalar.infinity v = v := by
    rw [Scalar.lesser, if_neg]
    rw [beq_self_eq_true ha, or_iff_left (by simp), lt_iff, value_infinity, ha]
    exact id
  have hgreatest : Scalar.greater 0 v = v := by
    rw [Scalar.greater, if_neg]
    rw [beq_self_eq_true ha, or_iff_left (by simp), lt_iff, value_zero, ha, real_lt_real]
    exact hpos.not_gt
  exact congrArg₂ mk hleast hgreatest

theorem spans_insert_empty (hv : IsPositive v) : (empty.insert v).Spans [v] := by
  rw [insert_empty hv]
  exact ⟨hv, hv, fun w hw => by rw [List.mem_singleton.1 hw]; simp,
    ⟨v, List.mem_singleton_self v, rfl⟩, ⟨v, List.mem_singleton_self v, rfl⟩⟩

theorem Spans.insert (h : r.Spans ms) (hv : IsPositive v) : (r.insert v).Spans (ms ++ [v]) := by
  obtain ⟨hleast, hmin⟩ := lg_lesser h.least hv
  obtain ⟨hgreatest, hmax⟩ := lg_greater h.greatest hv
  refine ⟨hleast, hgreatest, fun w hw => ?_, ?_, ?_⟩
  · rw [MagnitudeRange.insert, hmin, hmax]
    rcases List.mem_append.1 hw with hw | hw
    · exact ⟨(min_le_left _ _).trans (h.le w hw).1, (h.le w hw).2.trans (le_max_left _ _)⟩
    · rw [List.mem_singleton.1 hw]
      exact ⟨min_le_right _ _, le_max_right _ _⟩
  · rw [MagnitudeRange.insert, hmin]
    rcases min_choice (lg r.least) (lg v) with hc | hc
    · obtain ⟨w, hw, heq⟩ := h.least_mem
      exact ⟨w, List.mem_append_left _ hw, hc.trans heq⟩
    · exact ⟨v, by simp, hc⟩
  · rw [MagnitudeRange.insert, hmax]
    rcases max_choice (lg r.greatest) (lg v) with hc | hc
    · obtain ⟨w, hw, heq⟩ := h.greatest_mem
      exact ⟨w, List.mem_append_left _ hw, hc.trans heq⟩
    · exact ⟨v, by simp, hc⟩

theorem Spans.foldl (h : r.Spans ms) {vs : List α} (hvs : ∀ v ∈ vs, IsPositive v) :
    (vs.foldl MagnitudeRange.insert r).Spans (ms ++ vs) := by
  induction vs generalizing r ms with
  | nil => rwa [List.append_nil]
  | cons v vs ih =>
    have hrest := ih (h.insert (hvs v List.mem_cons_self))
      fun w hw => hvs w (List.mem_cons_of_mem v hw)
    rwa [List.append_assoc] at hrest

/-- The range that collects positive magnitudes spans them. -/
theorem spans_foldl_insert (hms : ∀ v ∈ ms, IsPositive v) (hne : ms ≠ []) :
    (ms.foldl MagnitudeRange.insert empty).Spans ms := by
  cases ms with
  | nil => exact absurd rfl hne
  | cons v vs =>
    exact (spans_insert_empty (hms v List.mem_cons_self)).foldl
      fun w hw => hms w (List.mem_cons_of_mem v hw)

end MagnitudeRange

/-! ### The factor of a line -/

namespace Balance

/-- What is typical of a line whose least and greatest magnitude have these logarithms. -/
noncomputable def center : Balance → ℝ → ℝ → ℝ
  | geometricMean, m, M => (m + M) / 2
  | largest, _, M => M / 2

variable {α : Type} [Scalar α] [Binary α] [LawfulBinary α]

/-- A line without magnitudes has the factor one. -/
theorem factor_empty (b : Balance) (least : α) : b.factor least .empty = 1 := by
  cases b with
  | geometricMean =>
    refine if_neg fun h => ?_
    obtain ⟨a, ha⟩ := isFinite_iff.1 h.1
    have hproduct : unpack (Scalar.infinity * 0 : α) = .notANumber := by
      rw [LawfulBinary.unpack_mul, LawfulBinary.unpack_infinity, LawfulBinary.unpack_zero]
      exact stored_notANumber
    rw [value, LawfulBinary.unpack_sqrt, MagnitudeRange.empty, hproduct] at ha
    simp only [UnpackedFloat.sqrt, stored_notANumber] at ha
    cases ha
  | largest =>
    refine if_neg fun h => ?_
    have hpos := h.2
    rw [lt_iff, value, value, LawfulBinary.unpack_sqrt, MagnitudeRange.empty,
      LawfulBinary.unpack_zero] at hpos
    simp only [UnpackedFloat.sqrt, stored_zero] at hpos
    exact not_lt_self _ hpos

/-- The factor of a line is what is typical of it, apart from rounding, or the least factor
    allowed. -/
theorem lg_factor {least : α} (hleast : IsPositive least) (b : Balance) {r : MagnitudeRange α}
    (hm : IsPositive r.least) (hM : IsPositive r.greatest) {B : ℝ} (hmB : |lg r.least| ≤ B)
    (hMB : |lg r.greatest| ≤ B) (hB : 2 * B + lgError α ≤ lgMax α) :
    IsPositive (b.factor least r) ∧
      ∃ t, |t - b.center (lg r.least) (lg r.greatest)| ≤ 2 * lgError α ∧
        lg (b.factor least r) = max t (lg least) := by
  have herror : 0 < lgError α := roundoff_pos _
  have hnonneg : 0 ≤ B := (abs_nonneg _).trans hmB
  rw [abs_le] at hmB hMB
  -- A positive typical value is taken, unless it is too small.
  have htaken {t : α} (ht : IsPositive t) :
      (if Scalar.isFinite t ∧ 0 < t then Scalar.greater t least else 1) =
        Scalar.greater t least := if_pos (isFinite_and_pos_iff.2 ht)
  cases b with
  | geometricMean =>
    obtain ⟨hproduct, hlog⟩ := lg_mul hm hM (abs_le.2 ⟨by linarith, by linarith⟩)
    rw [abs_le] at hlog
    obtain ⟨hroot, hlog'⟩ := lg_sqrt hproduct (abs_le.2 ⟨by linarith, by linarith⟩)
    obtain ⟨hfactor, hmax⟩ := lg_greater hroot hleast
    rw [abs_le] at hlog'
    rw [factor, htaken hroot]
    exact ⟨hfactor, _, abs_le.2 ⟨by rw [center]; linarith, by rw [center]; linarith⟩, hmax⟩
  | largest =>
    obtain ⟨hroot, hlog⟩ := lg_sqrt hM (abs_le.2 ⟨by linarith, by linarith⟩)
    obtain ⟨hfactor, hmax⟩ := lg_greater hroot hleast
    rw [factor, htaken hroot]
    exact ⟨hfactor, _, hlog.trans (by linarith), hmax⟩

end Balance

/-! ### Moderate matrices -/

section

variable {α : Type} [Binary α]

/-- A matrix with finite coefficients that are zero or have small logarithms. -/
def SparseMatrix.Moderate (A : SparseMatrix α) (h : ℝ) : Prop :=
  ∀ e ∈ A.entries, ∃ a, value e.value = .real a ∧ (a = 0 ∨ |lg e.value| ≤ h)

theorem SparseMatrix.Moderate.mono {A : SparseMatrix α} {h h' : ℝ} (hA : A.Moderate h)
    (hle : h ≤ h') : A.Moderate h' := by
  intro e he
  obtain ⟨a, ha, hlog⟩ := hA e he
  exact ⟨a, ha, hlog.imp_right fun hlg => hlg.trans hle⟩

end

namespace Factors

variable {α : Type} [Scalar α] [Binary α] {A : SparseMatrix α} {f : Factors α}

/-- The logarithm of what the factors leave of a coefficient, if nothing is rounded. -/
noncomputable def residue (f : Factors α) (e : Entry α) : ℝ :=
  lg e.value - (lg (f.rows.getD e.row 1) + lg (f.cols.getD e.col 1))

/-- Factors for the lines of a matrix with logarithms that are no greater than `R` for the rows
    and `C` for the columns. What they leave of the coefficients has logarithms between `-L`
    and `U`. -/
structure Tame (f : Factors α) (A : SparseMatrix α) (R C L U : ℝ) : Prop where
  size_rows : f.rows.size = A.rows
  size_cols : f.cols.size = A.cols
  row : ∀ i < A.rows, IsPositive (f.rows.getD i 1) ∧ |lg (f.rows.getD i 1)| ≤ R
  col : ∀ j < A.cols, IsPositive (f.cols.getD j 1) ∧ |lg (f.cols.getD j 1)| ≤ C
  residue : ∀ e ∈ A.entries, value e.value ≠ .real 0 → -L ≤ f.residue e ∧ f.residue e ≤ U

variable {R C L U : ℝ}

theorem Tame.mono (ht : f.Tame A R C L U) {R' C' L' U' : ℝ} (hR : R ≤ R') (hC : C ≤ C')
    (hL : L ≤ L') (hU : U ≤ U') : f.Tame A R' C' L' U' where
  size_rows := ht.size_rows
  size_cols := ht.size_cols
  row i hi := ⟨(ht.row i hi).1, (ht.row i hi).2.trans hR⟩
  col j hj := ⟨(ht.col j hj).1, (ht.col j hj).2.trans hC⟩
  residue e he hvalue := by
    obtain ⟨hlower, hupper⟩ := ht.residue e he hvalue
    exact ⟨by linarith, hupper.trans hU⟩

theorem Tame.isPositive (ht : f.Tame A R C L U) :
    (∀ d ∈ f.rows, IsPositive d) ∧ ∀ d ∈ f.cols, IsPositive d := by
  refine ⟨fun d hd => ?_, fun d hd => ?_⟩
  · obtain ⟨i, hi, rfl⟩ := Array.mem_iff_getElem.1 hd
    have hpos := (ht.row i (ht.size_rows ▸ hi)).1
    rwa [Array.getD_eq_getD_getElem?, Array.getElem?_eq_getElem hi] at hpos
  · obtain ⟨j, hj, rfl⟩ := Array.mem_iff_getElem.1 hd
    have hpos := (ht.col j (ht.size_cols ▸ hj)).1
    rwa [Array.getD_eq_getD_getElem?, Array.getElem?_eq_getElem hj] at hpos

variable [LawfulBinary α] {h B : ℝ}

/-- The magnitude of a coefficient is what the factors leave of it, apart from rounding. -/
theorem Tame.magnitude (ht : f.Tame A R C L U) (hA : A.Moderate h) (hL : L ≤ B) (hU : U ≤ B)
    (hB : h + B + lgError α ≤ lgMax α) {e : Entry α} (he : e ∈ A.entries) :
    (value e.value = .real 0 ∧ ¬ 0 < f.magnitude e) ∨
      (value e.value ≠ .real 0 ∧ IsPositive (f.magnitude e) ∧
        |lg (f.magnitude e) - f.residue e| ≤ 2 * lgError α) := by
  have herror : 0 < lgError α := roundoff_pos _
  obtain ⟨a, ha, hah⟩ := hA e he
  rcases eq_or_ne a 0 with rfl | hne
  · exact .inl ⟨ha, not_pos_abs_div ha _⟩
  · right
    have hvalue : value e.value ≠ .real 0 := by
      rw [ha]
      exact fun h0 => hne (real_injective h0)
    obtain ⟨hlower, hupper⟩ := ht.residue e he hvalue
    have hlog := abs_le.1 (hah.resolve_left hne)
    have hh : 0 ≤ h := (abs_nonneg _).trans (hah.resolve_left hne)
    rw [Factors.residue] at hlower hupper ⊢
    obtain ⟨hproduct, hlog'⟩ := lg_mul (ht.row e.row (A.inBounds e he).1).1
      (ht.col e.col (A.inBounds e he).2).1 (abs_le.2 ⟨by linarith, by linarith⟩)
    rw [abs_le] at hlog'
    obtain ⟨hquotient, herror'⟩ := lg_abs_div ha hne hproduct
      (abs_le.2 ⟨by linarith, by linarith⟩)
    rw [abs_le] at herror'
    exact ⟨hvalue, hquotient, abs_le.2
      ⟨by rw [Factors.magnitude, Factors.scaledValue]; linarith,
        by rw [Factors.magnitude, Factors.scaledValue]; linarith⟩⟩

/-- The positive magnitudes in a line are those of the coefficients that are not zero. -/
theorem Tame.inLine (ht : f.Tame A R C L U) (hA : A.Moderate h) (hL : L ≤ B) (hU : U ≤ B)
    (hB : h + B + lgError α ≤ lgMax α) (line : Entry α → ℕ) (i : ℕ) :
    (∀ v ∈ MagnitudeRange.inLine line f.magnitude A.entries i,
      IsPositive v ∧ -L - 2 * lgError α ≤ lg v ∧ lg v ≤ U + 2 * lgError α) ∧
      ∀ e ∈ A.entries, line e = i → value e.value ≠ .real 0 →
        ∃ v ∈ MagnitudeRange.inLine line f.magnitude A.entries i,
          |lg v - f.residue e| ≤ 2 * lgError α := by
  refine ⟨fun v hv => ?_, fun e he hline hvalue => ?_⟩
  · obtain ⟨e, he, -, hpos, rfl⟩ := MagnitudeRange.mem_inLine.1 hv
    rcases ht.magnitude hA hL hU hB he with ⟨-, hzero⟩ | ⟨hvalue, hpositive, hlog⟩
    · exact absurd hpos hzero
    · have hresidue := ht.residue e he hvalue
      rw [abs_le] at hlog
      exact ⟨hpositive, by linarith, by linarith⟩
  · rcases ht.magnitude hA hL hU hB he with ⟨hzero, -⟩ | ⟨-, hpositive, hlog⟩
    · exact absurd hzero hvalue
    · exact ⟨_, MagnitudeRange.mem_inLine.2 ⟨e, he, hline, hpositive.pos, rfl⟩, hlog⟩

/-- The factor of a line is what is typical of a range that comprises what the factors so far
    leave of its coefficients. -/
theorem Tame.lg_lineFactor (ht : f.Tame A R C L U) (hA : A.Moderate h) (hL : L ≤ B) (hU : U ≤ B)
    (hL0 : 0 ≤ L) (hU0 : 0 ≤ U) (hB : h + B + lgError α ≤ lgMax α)
    (hB' : 2 * B + 5 * lgError α ≤ lgMax α) {least : α} (hleast : IsPositive least)
    (hone : lg least ≤ 0) (b : Balance) (line : Entry α → ℕ) (i : ℕ) :
    IsPositive (f.lineFactor b least line A i) ∧
      ∃ m M t, -L - 2 * lgError α ≤ m ∧ m ≤ M ∧ M ≤ U + 2 * lgError α ∧
        (∀ e ∈ A.entries, line e = i → value e.value ≠ .real 0 →
          m - 2 * lgError α ≤ f.residue e ∧ f.residue e ≤ M + 2 * lgError α) ∧
        |t - b.center m M| ≤ 2 * lgError α ∧
        lg (f.lineFactor b least line A i) = max t (lg least) := by
  have herror : 0 < lgError α := roundoff_pos _
  obtain ⟨hmagnitude, hentry⟩ := ht.inLine hA hL hU hB line i
  rw [lineFactor]
  generalize MagnitudeRange.inLine line f.magnitude A.entries i = ms at hmagnitude hentry
  rcases eq_or_ne ms [] with rfl | hne
  · -- All coefficients in the line are zero.
    rw [List.foldl_nil, b.factor_empty, lg_one]
    refine ⟨isPositive_one, 0, 0, 0, by linarith, le_rfl, by linarith, fun e he hline hvalue => ?_,
      ?_, (max_eq_left hone).symm⟩
    · obtain ⟨v, hv, -⟩ := hentry e he hline hvalue
      exact absurd hv List.not_mem_nil
    · cases b with
      | geometricMean | largest => simpa [Balance.center] using herror.le
  · -- The others have magnitudes that the range of the line spans.
    have hspans := MagnitudeRange.spans_foldl_insert (fun v hv => (hmagnitude v hv).1) hne
    generalize ms.foldl MagnitudeRange.insert .empty = r at hspans
    obtain ⟨v, hv, hvm⟩ := hspans.least_mem
    obtain ⟨w, hw, hwM⟩ := hspans.greatest_mem
    have hm := hvm ▸ (hmagnitude v hv).2.1
    have hM := hwM ▸ (hmagnitude w hw).2.2
    have hmM := (hspans.le v hv).1.trans (hspans.le v hv).2
    obtain ⟨hfactor, t, htc, hmax⟩ := b.lg_factor hleast hspans.least hspans.greatest
      (B := B + 2 * lgError α) (abs_le.2 ⟨by linarith, by linarith⟩)
      (abs_le.2 ⟨by linarith, by linarith⟩) (by linarith)
    refine ⟨hfactor, _, _, t, hm, hmM, hM, fun e he hline hvalue => ?_, htc, hmax⟩
    obtain ⟨z, hz, hlog⟩ := hentry e he hline hvalue
    have hle := hspans.le z hz
    rw [abs_le] at hlog
    exact ⟨by linarith, by linarith⟩

/-! ### A pass -/

/-- The factor of a line in a pass to the geometric mean. -/
theorem Tame.lg_lineFactor_mean (ht : f.Tame A R C B B) (hA : A.Moderate h) (hB0 : 0 ≤ B)
    (hB : h + B + lgError α ≤ lgMax α) (hB' : 2 * B + 5 * lgError α ≤ lgMax α) {least : α}
    (hleast : IsPositive least) (hone : lg least ≤ 0) (line : Entry α → ℕ) (i : ℕ) :
    IsPositive (f.lineFactor .geometricMean least line A i) ∧
      |lg (f.lineFactor .geometricMean least line A i)| ≤ B + 4 * lgError α ∧
      ∀ e ∈ A.entries, line e = i → value e.value ≠ .real 0 →
        |f.residue e - lg (f.lineFactor .geometricMean least line A i)| ≤ B + 6 * lgError α := by
  have herror : 0 < lgError α := roundoff_pos _
  obtain ⟨hpos, m, M, t, hm, hmM, hM, hline, htc, hmax⟩ :=
    ht.lg_lineFactor hA le_rfl le_rfl hB0 hB0 hB hB' hleast hone .geometricMean line i
  rw [Balance.center, abs_le] at htc
  rw [hmax]
  refine ⟨hpos, abs_le.2 ⟨?_, max_le (by linarith) (by linarith)⟩, fun e he hi hvalue => ?_⟩
  · exact le_max_of_le_left (by linarith)
  · -- A factor that was too small is nearer to one, and so is what it leaves.
    obtain ⟨hlower, hupper⟩ := hline e he hi hvalue
    have hresidue := (ht.residue e he hvalue).1
    have hle := le_max_left t (lg least)
    refine abs_le.2 ⟨?_, by linarith⟩
    rcases max_choice t (lg least) with hc | hc
    · rw [hc]
      linarith
    · rw [hc]
      linarith

/-- The factor of a line in a pass to the greatest magnitude. -/
theorem Tame.lg_lineFactor_largest (ht : f.Tame A R C L U) (hA : A.Moderate h) (hL : L ≤ B)
    (hU : U ≤ B) (hL0 : 0 ≤ L) (hU0 : 0 ≤ U) (hB : h + B + lgError α ≤ lgMax α)
    (hB' : 2 * B + 5 * lgError α ≤ lgMax α) {least : α} (hleast : IsPositive least)
    (hone : lg least ≤ 0) (line : Entry α → ℕ) (i : ℕ) :
    IsPositive (f.lineFactor .largest least line A i) ∧
      -(L / 2 + 3 * lgError α) ≤ lg (f.lineFactor .largest least line A i) ∧
      lg (f.lineFactor .largest least line A i) ≤ U / 2 + 3 * lgError α ∧
      ∀ e ∈ A.entries, line e = i → value e.value ≠ .real 0 →
        f.residue e / 2 - 3 * lgError α ≤ lg (f.lineFactor .largest least line A i) := by
  have herror : 0 < lgError α := roundoff_pos _
  obtain ⟨hpos, m, M, t, hm, hmM, hM, hline, htc, hmax⟩ :=
    ht.lg_lineFactor hA hL hU hL0 hU0 hB hB' hleast hone .largest line i
  rw [Balance.center, abs_le] at htc
  rw [hmax]
  refine ⟨hpos, le_max_of_le_left (by linarith), max_le (by linarith) (by linarith),
    fun e he hi hvalue => le_max_of_le_left ?_⟩
  have hupper := (hline e he hi hvalue).2
  linarith

/-- The factors of one kind of line after a pass to the geometric mean. -/
theorem Tame.lg_times_mean (ht : f.Tame A R C B B) (hA : A.Moderate h) (hB0 : 0 ≤ B)
    (hB : h + B + lgError α ≤ lgMax α) (hB' : 2 * B + 5 * lgError α ≤ lgMax α) {least : α}
    (hleast : IsPositive least) (hone : lg least ≤ 0) {x : Vec α} {X : ℝ} {count : ℕ}
    (hs : x.size = count) (hx : ∀ i < count, IsPositive (x.getD i 1) ∧ |lg (x.getD i 1)| ≤ X)
    (hX : X + (B + 4 * lgError α) ≤ lgMax α) (line : Entry α → ℕ) {y : Vec α}
    (hy : y = Vec.times x ((MagnitudeRange.ofLines line f.magnitude count A.entries).map
      (Balance.geometricMean.factor least))) {i : ℕ} (hi : i < count) :
    IsPositive (y.getD i 1) ∧ |lg (y.getD i 1)| ≤ X + B + 5 * lgError α ∧
      ∀ e ∈ A.entries, line e = i → value e.value ≠ .real 0 →
        |f.residue e - (lg (y.getD i 1) - lg (x.getD i 1))| ≤ B + 7 * lgError α := by
  obtain ⟨hpos, hle, hline⟩ := ht.lg_lineFactor_mean hA hB0 hB hB' hleast hone line i
  obtain ⟨hproduct, herror, hbound⟩ := lg_mul_of_le (hx i hi).1 (hx i hi).2 hpos hle hX
  rw [hy, getD_times_lineFactor hs hi]
  refine ⟨hproduct, hbound.trans (by linarith), fun e he hei hvalue => ?_⟩
  have hresidue := abs_le.1 (hline e he hei hvalue)
  rw [abs_le] at herror
  exact abs_le.2 ⟨by linarith, by linarith⟩

/-- The factors of one kind of line after a pass to the greatest magnitude. -/
theorem Tame.lg_times_largest (ht : f.Tame A R C L U) (hA : A.Moderate h) (hL0 : 0 ≤ L)
    (hU0 : 0 ≤ U) (hB : h + (L + U) + lgError α ≤ lgMax α)
    (hB' : 2 * (L + U) + 5 * lgError α ≤ lgMax α) {least : α} (hleast : IsPositive least)
    (hone : lg least ≤ 0) {x : Vec α} {X : ℝ} {count : ℕ} (hs : x.size = count)
    (hx : ∀ i < count, IsPositive (x.getD i 1) ∧ |lg (x.getD i 1)| ≤ X)
    (hX : X + (L + U) / 2 + 3 * lgError α ≤ lgMax α) (line : Entry α → ℕ) {y : Vec α}
    (hy : y = Vec.times x ((MagnitudeRange.ofLines line f.magnitude count A.entries).map
      (Balance.largest.factor least))) {i : ℕ} (hi : i < count) :
    IsPositive (y.getD i 1) ∧ |lg (y.getD i 1)| ≤ X + (L + U) / 2 + 4 * lgError α ∧
      lg (y.getD i 1) - lg (x.getD i 1) ≤ U / 2 + 4 * lgError α ∧
      ∀ e ∈ A.entries, line e = i → value e.value ≠ .real 0 →
        f.residue e / 2 - 4 * lgError α ≤ lg (y.getD i 1) - lg (x.getD i 1) := by
  have herror : 0 < lgError α := roundoff_pos _
  obtain ⟨hpos, hlower, hupper, hentries⟩ := ht.lg_lineFactor_largest hA
    (by linarith : L ≤ L + U) (by linarith) hL0 hU0 hB hB' hleast hone line i
  obtain ⟨hproduct, hlog, hbound⟩ := lg_mul_of_le (hx i hi).1 (hx i hi).2 hpos
    (abs_le.2 ⟨by linarith, by linarith⟩ : _ ≤ (L + U) / 2 + 3 * lgError α) (by linarith)
  rw [abs_le] at hlog
  rw [hy, getD_times_lineFactor hs hi]
  refine ⟨hproduct, hbound.trans (by linarith), by linarith, fun e he hei hvalue => ?_⟩
  have hresidue := hentries e he hei hvalue
  linarith

/-- A pass to the geometric mean does not widen the range of what is left, apart from
    rounding. -/
theorem Tame.meanPass (ht : f.Tame A R C B B) (hA : A.Moderate h) (hB0 : 0 ≤ B)
    (hB : h + B + 8 * lgError α ≤ lgMax α) (hB' : 2 * B + 19 * lgError α ≤ lgMax α)
    (hR : R + B + 4 * lgError α ≤ lgMax α) (hC : C + B + 11 * lgError α ≤ lgMax α) {least : α}
    (hleast : IsPositive least) (hone : lg least ≤ 0) :
    (Factors.pass .geometricMean least A f).Tame A (R + B + 5 * lgError α)
      (C + B + 12 * lgError α) (B + 14 * lgError α) (B + 14 * lgError α) := by
  have herror : 0 < lgError α := roundoff_pos _
  -- The rows come first, and the columns are balanced with their new factors.
  have hrows : ({ f with rows := f.balanceRows .geometricMean least A } : Factors α).Tame A
      (R + B + 5 * lgError α) C (B + 7 * lgError α) (B + 7 * lgError α) := by
    have hrow {i : ℕ} (hi : i < A.rows) := ht.lg_times_mean hA hB0 (by linarith) (by linarith)
      hleast hone ht.size_rows ht.row (by linarith) Entry.row rfl hi
    refine ⟨by simp [Factors.balanceRows, ht.size_rows], ht.size_cols,
      fun i hi => ⟨(hrow hi).1, (hrow hi).2.1⟩, ht.col, fun e he hvalue => ?_⟩
    have hresidue := abs_le.1 ((hrow (A.inBounds e he).1).2.2 e he rfl hvalue)
    rw [Factors.residue] at hresidue ⊢
    rw [Factors.balanceRows]
    exact ⟨by linarith, by linarith⟩
  have hcol {j : ℕ} (hj : j < A.cols) := hrows.lg_times_mean hA (by linarith) (by linarith)
    (by linarith) hleast hone ht.size_cols ht.col (by linarith) Entry.col rfl hj
  rw [Factors.pass]
  refine ⟨hrows.size_rows, by simp [Factors.balanceCols, ht.size_cols], hrows.row,
    fun j hj => ⟨(hcol hj).1, (hcol hj).2.1.trans (by linarith)⟩, fun e he hvalue => ?_⟩
  have hresidue := abs_le.1 ((hcol (A.inBounds e he).2).2.2 e he rfl hvalue)
  rw [Factors.residue] at hresidue ⊢
  rw [Factors.balanceCols]
  exact ⟨by linarith, by linarith⟩

/-- A pass to the greatest magnitude leaves nothing much greater than one, and makes the least
    that is left smaller by no more than the range. -/
theorem Tame.largestPass (ht : f.Tame A R C L U) (hA : A.Moderate h) (hL0 : 0 ≤ L)
    (hU0 : 0 ≤ U) (hB : h + (L + U) + lgError α ≤ lgMax α)
    (hB' : 2 * (L + U) + 5 * lgError α ≤ lgMax α)
    (hR : R + (L + U) / 2 + 3 * lgError α ≤ lgMax α)
    (hC : C + (L + U) / 2 + 3 * lgError α ≤ lgMax α) {least : α} (hleast : IsPositive least)
    (hone : lg least ≤ 0) :
    (Factors.pass .largest least A f).Tame A (R + (L + U) / 2 + 4 * lgError α)
      (C + (L + U) / 2 + 4 * lgError α) (L + U + 8 * lgError α) (8 * lgError α) := by
  have herror : 0 < lgError α := roundoff_pos _
  -- Rows and columns are balanced alike, from the same magnitudes.
  have hrow {i : ℕ} (hi : i < A.rows) := ht.lg_times_largest hA hL0 hU0 hB hB'
    hleast hone ht.size_rows ht.row hR Entry.row rfl hi
  have hcol {j : ℕ} (hj : j < A.cols) := ht.lg_times_largest hA hL0 hU0 hB hB'
    hleast hone ht.size_cols ht.col hC Entry.col rfl hj
  rw [Factors.pass]
  refine ⟨by simp [Factors.balanceRows, ht.size_rows], by simp [Factors.balanceCols, ht.size_cols],
    fun i hi => ⟨(hrow hi).1, (hrow hi).2.1⟩, fun j hj => ⟨(hcol hj).1, (hcol hj).2.1⟩,
    fun e he hvalue => ?_⟩
  obtain ⟨-, -, hrowle, hrowge⟩ := hrow (A.inBounds e he).1
  obtain ⟨-, -, hcolle, hcolge⟩ := hcol (A.inBounds e he).2
  have hrowge := hrowge e he rfl hvalue
  have hcolge := hcolge e he rfl hvalue
  have hresidue := (ht.residue e he hvalue).1
  rw [Factors.residue] at hresidue hrowge hcolge ⊢
  rw [Factors.balanceRows, Factors.balanceCols]
  exact ⟨by linarith, by linarith⟩

/-! ### All passes -/

/-- Without any pass the coefficients are left as they are. -/
theorem tame_unit (hA : A.Moderate h) : (unit A).Tame A 0 0 h h := by
  have hone : IsPositive (1 : α) ∧ |lg (1 : α)| ≤ 0 := ⟨isPositive_one, by rw [lg_one, abs_zero]⟩
  refine ⟨Vec.size_ones _, Vec.size_ones _, fun i _ => ?_, fun j _ => ?_, fun e he hvalue => ?_⟩
  · rwa [unit, getD_ones]
  · rwa [unit, getD_ones]
  · obtain ⟨a, ha, hah⟩ := hA e he
    have hlog := hah.resolve_left fun h0 => hvalue (h0 ▸ ha)
    rw [Factors.residue, unit, getD_ones, getD_ones, lg_one, add_zero, sub_zero]
    exact abs_le.1 hlog

/-- What so many passes need of the range of the format. -/
structure Room (α : Type) [Scalar α] [Binary α] (n : ℕ) (h : ℝ) : Prop where
  nonneg : 0 ≤ h
  le : (n + 4) * (h + 1) ≤ lgMax α + 1

/-- What room there is before a pass. -/
theorem Room.bounds {n : ℕ} (hr : Room α n h) {k : ℕ} (hk : k < n) :
    (k + 1) * lgError α ≤ 1 / 1000 ∧ 5 * h + 4 ≤ lgMax α ∧
      (k + 1) * (h + 1 / 2) + 4 * h + 3 ≤ lgMax α := by
  have hh := hr.nonneg
  have hle := hr.le
  have hk' : (k : ℝ) + 1 ≤ n := by exact_mod_cast hk
  have hk0 : (0 : ℝ) ≤ k := Nat.cast_nonneg k
  have hexponent : lgMax α + 1 = (format α).exponentBias := sub_add_cancel _ _
  refine ⟨?_, by nlinarith, by nlinarith⟩
  calc (k + 1) * lgError α ≤ (format α).exponentBias * lgError α :=
        mul_le_mul_of_nonneg_right (by nlinarith) (roundoff_pos _).le
    _ ≤ 1 / 1000 := exponentBias_mul_lgError

section

variable {n : ℕ} (hr : Room α n h) (hA : A.Moderate h) {least : α} (hleast : IsPositive least)
  (hone : lg least ≤ 0)

include hr hA hleast hone

/-- After passes to the geometric mean, what is left has the same range as in the beginning,
    apart from rounding. -/
theorem Room.tame_meanPasses {k : ℕ} (hk : k ≤ n) :
    (passes .geometricMean least A k (unit A)).Tame A (k * (h + 1 / 2)) (k * (h + 1 / 2))
      (h + 14 * (k * lgError α)) (h + 14 * (k * lgError α)) := by
  have herror : 0 < lgError α := roundoff_pos _
  have hh := hr.nonneg
  induction k with
  | zero =>
    have hunit : passes .geometricMean least A 0 (unit A) = unit A := rfl
    rw [hunit]
    simpa using tame_unit hA
  | succ k ih =>
    obtain ⟨hsmall, hrange, hroom⟩ := hr.bounds hk
    have hdrift : 0 ≤ k * lgError α := by positivity
    have hpass := (ih (Nat.le_of_succ_le hk)).meanPass hA (by linarith) (by linarith)
      (by linarith) (by linarith) (by linarith) hleast hone
    push_cast
    exact hpass.mono (by linarith) (by linarith) (by linarith) (by linarith)

/-- After passes to the greatest magnitude, what is left has no wider range. -/
theorem Room.tame_largestPasses {k j : ℕ} (hk : k + j ≤ n) : ∃ L U, 0 ≤ L ∧ 0 ≤ U ∧
    L + U ≤ 2 * (h + 14 * ((k + j : ℕ) * lgError α)) ∧
      (passes .largest least A j (passes .geometricMean least A k (unit A))).Tame A
        ((k + j : ℕ) * (h + 1 / 2)) ((k + j : ℕ) * (h + 1 / 2)) L U := by
  have herror : 0 < lgError α := roundoff_pos _
  have hh := hr.nonneg
  induction j with
  | zero =>
    have hdrift : 0 ≤ k * lgError α := by positivity
    exact ⟨_, _, by linarith, by linarith, by rw [add_zero]; linarith,
      hr.tame_meanPasses hA hleast hone hk⟩
  | succ j ih =>
    obtain ⟨L, U, hL, hU, hLU, htame⟩ := ih (Nat.le_of_succ_le hk)
    obtain ⟨hsmall, hrange, hroom⟩ := hr.bounds (k := k + j) hk
    have hdrift : 0 ≤ (k + j : ℕ) * lgError α := by positivity
    have hpass := htame.largestPass hA hL hU (by linarith) (by linarith) (by linarith)
      (by linarith) hleast hone
    rw [← Nat.add_assoc, Nat.cast_succ]
    exact ⟨_, _, by linarith, by linarith, by linarith,
      hpass.mono (by linarith) (by linarith) le_rfl le_rfl⟩

end

/-- The factors that balance a moderate matrix are positive numbers. -/
theorem isPositive_balancing {means largests : ℕ} (hr : Room α (means + largests) h)
    (hA : A.Moderate h) {least : α} (hleast : IsPositive least) (hone : lg least ≤ 0) :
    (∀ d ∈ (balancing A means largests least).rows, IsPositive d) ∧
      ∀ d ∈ (balancing A means largests least).cols, IsPositive d := by
  obtain ⟨L, U, -, -, -, htame⟩ := hr.tame_largestPasses hA hleast hone le_rfl
  exact htame.isPositive

/-- What balancing makes of a coefficient of a moderate matrix has the same sign, and a
    logarithm that is hardly more than twice as large as it may have been. -/
theorem exists_scaledValue {means largests : ℕ} (hpos : 0 < means + largests)
    (hr : Room α (means + largests) h) (hproduct : (means + largests : ℕ) * (2 * h + 1) ≤ lgMax α)
    (hA : A.Moderate h) {least : α} (hleast : IsPositive least) (hone : lg least ≤ 0)
    {e : Entry α} (he : e ∈ A.entries) : ∃ a b, value e.value = .real a ∧
      value ((balancing A means largests least).scaledValue e) = .real b ∧ (b = 0 ↔ a = 0) ∧
      (0 ≤ a → 0 ≤ b) ∧ (b ≠ 0 → |Real.logb 2 b| ≤ 2 * h + 1) := by
  obtain ⟨L, U, hL, hU, hLU, htame⟩ := hr.tame_largestPasses hA hleast hone le_rfl
  change (balancing A means largests least).Tame A _ _ L U at htame
  generalize balancing A means largests least = f at htame ⊢
  obtain ⟨hsmall, hrange, -⟩ := hr.bounds (k := means + largests - 1) (by omega)
  rw [← Nat.cast_succ, Nat.succ_eq_add_one, Nat.sub_add_cancel hpos] at hsmall
  have herror : 0 < lgError α := roundoff_pos _
  have hone' : (1 : ℝ) ≤ (means + largests : ℕ) := by exact_mod_cast hpos
  have herror' : lgError α ≤ (means + largests : ℕ) * lgError α :=
    le_mul_of_one_le_left herror.le hone'
  have hh := hr.nonneg
  obtain ⟨a, ha, -⟩ := hA e he
  -- The product of the two factors is a positive number.
  obtain ⟨hrow, hlrow⟩ := htame.row e.row (A.inBounds e he).1
  obtain ⟨hcol, hlcol⟩ := htame.col e.col (A.inBounds e he).2
  obtain ⟨d, hd, hdpos⟩ := (lg_mul hrow hcol
    ((abs_add_le _ _).trans (by linarith))).1
  rcases htame.magnitude hA (B := L + U) (by linarith) (by linarith) (by linarith) he with
    ⟨hzero, -⟩ | ⟨hne, hmagnitude, hlog⟩
  · obtain rfl := real_injective (ha.symm.trans hzero)
    have hquotient := rounds_div ha hd hdpos.ne'
    rw [zero_div] at hquotient
    exact ⟨0, 0, ha, hquotient.eq_real (representable_zero _) (by simpa using overflow_pos _),
      by simp⟩
  · have ha0 : a ≠ 0 := fun h0 => hne (h0 ▸ ha)
    obtain ⟨c, hc, hcpos⟩ := hmagnitude
    obtain ⟨b, hb⟩ : ∃ b, value (f.scaledValue e) = .real b := by
      rw [magnitude, value_abs] at hc
      cases hv : value (f.scaledValue e) with
      | real b => exact ⟨b, rfl⟩
      | top | bot | undefined => rw [hv] at hc; exact nomatch hc
    have hbc : |b| = c := by
      rw [magnitude, value_abs, hb] at hc
      exact real_injective hc
    have hb0 : b ≠ 0 := abs_pos.1 (hbc ▸ hcpos)
    refine ⟨a, b, ha, hb, iff_of_false hb0 ha0, fun hnonneg => ?_, fun _ => ?_⟩
    · have hge := (rounds_div ha hd hdpos.ne').ge (representable_zero _)
        (by simpa using overflow_pos _) (div_nonneg hnonneg hdpos.le)
      rw [show value (e.value / _) = .real b from hb, real_le_real] at hge
      exact hge
    · obtain ⟨hlower, hupper⟩ := htame.residue e he hne
      rw [lg_eq hc, ← hbc, Real.logb_abs, abs_le] at hlog
      exact abs_le.2 ⟨by linarith, by linarith⟩

end Factors

end HybridGradient
