import HybridGradient.Proofs.Magnitudes

/-!
# The range of the coefficients

Balancing is to bring the coefficients closer to each other, and in exact arithmetic no pass
drives any two of them further apart than the greatest and the least one were, in proportion.
This holds for the typical magnitudes of lines, and stays true when small ones are raised: to
raise a factor does the more for a coefficient the more its own factor was to be raised.

* `Factors.Spread`: how far apart factors leave the coefficients, with what a pass makes of it
  (`Factors.Spread.pass`);
* `Factors.Unclamped`: a pass to the geometric mean in which no factor is raised, after which the
  extremes of each column are reciprocal (`Factors.Positive.mul_eq_one_of_unclamped`);
* `Scaled.ratio_balanced`: the ratio of balanced matrices.
-/

namespace HybridGradient

open Extended

/-! ### Two coefficients -/

/-- To raise both of two numbers does not reverse an inequality between multiples of them in
    which the one that is raised more has the smaller coefficient. -/
theorem mul_max_le {a c s s' : ℝ} (ha : 0 ≤ a) (hac : a ≤ c) (hs : 0 < s) (h : a * s ≤ c * s')
    (ε : ℝ) : a * max s ε ≤ c * max s' ε := by
  have hc : 0 ≤ c := ha.trans hac
  rcases le_total ε s with hε | hε
  · rw [max_eq_left hε]
    exact h.trans (mul_le_mul_of_nonneg_left (le_max_left s' ε) hc)
  · rw [max_eq_right hε]
    exact mul_le_mul hac (le_max_right s' ε) (hs.le.trans hε) hc

/-- Of two lines whose numbers are apart by no more than a ratio, a number in the first and one
    in the second are apart by no more than that after a division by the geometric means. -/
theorem mul_sqrt_mul_le {ρ x y lo hi lo' hi' : ℝ} (hlo : 0 < lo) (hlo' : 0 < lo') (hx : 0 < x)
    (hxhi : x ≤ hi) (hhi : hi ≤ ρ * lo) (hylo : lo' ≤ y) (hhi' : hi' ≤ ρ * lo') :
    x * √(lo' * hi') ≤ ρ * y * √(lo * hi) := by
  have hhi0 : 0 < hi := hx.trans_le hxhi
  have hρ : 0 < ρ := pos_of_mul_pos_left (hhi0.trans_le hhi) hlo.le
  have hmean : hi ≤ √ρ * √(lo * hi) := by
    rw [← Real.sqrt_mul hρ.le]
    refine Real.le_sqrt_of_sq_le ?_
    nlinarith
  have hmean' : √(lo' * hi') ≤ √ρ * lo' := by
    rw [Real.sqrt_le_left (by positivity), mul_pow, Real.sq_sqrt hρ.le]
    nlinarith
  calc x * √(lo' * hi')
      ≤ √ρ * √(lo * hi) * (√ρ * y) :=
        mul_le_mul (hxhi.trans hmean)
          (hmean'.trans (mul_le_mul_of_nonneg_left hylo (Real.sqrt_nonneg ρ)))
          (Real.sqrt_nonneg _) (by positivity)
    _ = ρ * y * √(lo * hi) := by
        rw [mul_mul_mul_comm, Real.mul_self_sqrt hρ.le]
        ring

namespace Factors

/-- Factors leave no coefficient greater than a multiple of another one. -/
def Spread (f : Factors Extended) (A : SparseMatrix Extended) (ρ : ℝ) : Prop :=
  ∀ e e', A.Nonzero e → A.Nonzero e' → f.left e ≤ ρ * f.left e'

variable {A : SparseMatrix Extended} {f f' : Factors Extended} {r : Fin A.rows → ℝ}
  {v : Fin A.cols → ℝ} {e e' : Entry Extended} {ρ least : ℝ}

theorem Spread.pos (h : f.Spread A ρ) (he : A.Nonzero e) (hpos : 0 < f.left e) : 0 < ρ :=
  pos_of_mul_pos_left (hpos.trans_le (h e e he he)) hpos.le

theorem Spread.le_of_extremes (h : f.Spread A ρ) {line : Entry Extended → ℕ} {i : ℕ} {lo hi : ℝ}
    (hlo : IsLeast (f.leftIn A line i) lo) (hhi : IsGreatest (f.leftIn A line i) hi) :
    hi ≤ ρ * lo := by
  obtain ⟨e, he, -, rfl⟩ := hhi.1
  obtain ⟨e', he', -, rfl⟩ := hlo.1
  exact h e e' he he'

variable (hA : ∀ e ∈ A.entries, Scalar.isFinite e.value = true)

include hA

/-- What is left of two coefficients after a division by the geometric means of their lines. -/
theorem Spread.mul_mean_le (hs : f.Spread A ρ) (h : f.Positive r v) (least : ℝ)
    (line : Entry Extended → ℕ) (he : A.Nonzero e) (he' : A.Nonzero e') :
    f.left e * (f.lineFactor .geometricMean (real least) line A (line e')).toReal ≤
      ρ * f.left e' * (f.lineFactor .geometricMean (real least) line A (line e)).toReal := by
  obtain ⟨lo, hi, hlo, hhi, heq⟩ := h.exists_lineFactor hA .geometricMean least line he
  obtain ⟨lo', hi', hlo', hhi', heq'⟩ := h.exists_lineFactor hA .geometricMean least line he'
  have hpos := h.pos_of_mem_leftIn hA hlo.1
  have hpos' := h.pos_of_mem_leftIn hA hlo'.1
  rw [heq, heq', toReal_real, toReal_real]
  exact mul_max_le (h.left_pos hA he).le (hs e e' he he')
    (Balance.middle_pos _ hpos' (h.pos_of_mem_leftIn hA hhi'.1))
    (mul_sqrt_mul_le hpos hpos' (h.left_pos hA he) (hhi.2 ⟨e, he, rfl, rfl⟩)
      (hs.le_of_extremes hlo hhi) (hlo'.2 ⟨e', he', rfl, rfl⟩) (hs.le_of_extremes hlo' hhi')) least

/-- The roots of what is left of two coefficients after a division by the roots of the greatest
    magnitudes in their lines. -/
theorem Spread.sqrt_mul_largest_le (hs : f.Spread A ρ) (h : f.Positive r v) (least : ℝ)
    (line : Entry Extended → ℕ) (he : A.Nonzero e) (he' : A.Nonzero e') :
    √(f.left e) * (f.lineFactor .largest (real least) line A (line e')).toReal ≤
      √(ρ * f.left e') * (f.lineFactor .largest (real least) line A (line e)).toReal := by
  obtain ⟨lo, hi, hlo, hhi, heq⟩ := h.exists_lineFactor hA .largest least line he
  obtain ⟨lo', hi', hlo', hhi', heq'⟩ := h.exists_lineFactor hA .largest least line he'
  have hratio : hi' ≤ ρ * f.left e' := by
    obtain ⟨g, hg, -, rfl⟩ := hhi'.1
    exact hs g e' hg he'
  rw [heq, heq', toReal_real, toReal_real]
  refine mul_max_le (Real.sqrt_nonneg _) (Real.sqrt_le_sqrt (hs e e' he he'))
    (Balance.middle_pos _ (h.pos_of_mem_leftIn hA hlo'.1) (h.pos_of_mem_leftIn hA hhi'.1)) ?_ least
  rw [mul_comm]
  exact mul_le_mul (Real.sqrt_le_sqrt hratio) (Real.sqrt_le_sqrt (hhi.2 ⟨e, he, rfl, rfl⟩))
    (Real.sqrt_nonneg _) (Real.sqrt_nonneg _)

/-! ### A pass -/

omit hA in
/-- The factor of a line is a positive number. -/
theorem lineFactor_real (f : Factors Extended) (b : Balance) (least : ℝ)
    (line : Entry Extended → ℕ) (A : SparseMatrix Extended) (i : ℕ) :
    f.lineFactor b (real least) line A i =
        real (f.lineFactor b (real least) line A i).toReal ∧
      0 < (f.lineFactor b (real least) line A i).toReal := by
  obtain ⟨t, ht, heq⟩ := b.factor_real least
    ((MagnitudeRange.inLine line f.magnitude A.entries i).foldl MagnitudeRange.insert .empty)
  rw [lineFactor, heq]
  exact ⟨rfl, ht⟩

/-- Dividing by the geometric means of lines drives no coefficients further apart. -/
theorem Spread.divide_means (hs : f.Spread A ρ) (h : f.Positive r v) (least : ℝ)
    (line : Entry Extended → ℕ) (hleft : ∀ e, A.Nonzero e →
      f'.left e = f.left e / (f.lineFactor .geometricMean (real least) line A (line e)).toReal) :
    f'.Spread A ρ := by
  intro e e' he he'
  rw [hleft e he, hleft e' he', ← mul_div_assoc,
    div_le_div_iff₀ (lineFactor_real f _ least line A _).2 (lineFactor_real f _ least line A _).2]
  exact hs.mul_mean_le hA h least line he he'

/-- Dividing by the roots of the greatest magnitudes of rows and columns does not either. -/
theorem Spread.divide_largests (hs : f.Spread A ρ) (h : f.Positive r v) (least : ℝ)
    (hleft : ∀ e, A.Nonzero e → f'.left e =
      f.left e / ((f.lineFactor .largest (real least) Entry.row A e.row).toReal *
        (f.lineFactor .largest (real least) Entry.col A e.col).toReal)) :
    f'.Spread A ρ := by
  intro e e' he he'
  have hpos (line : Entry Extended → ℕ) (i : ℕ) := (lineFactor_real f .largest least line A i).2
  have hnonneg := (h.left_pos hA he).le
  have hnonneg' := mul_nonneg (hs.pos he (h.left_pos hA he)).le (h.left_pos hA he').le
  rw [hleft e he, hleft e' he', ← mul_div_assoc,
    div_le_div_iff₀ (mul_pos (hpos _ _) (hpos _ _)) (mul_pos (hpos _ _) (hpos _ _))]
  -- Each kind of line takes up one root of what is left.
  have hmul := mul_le_mul (hs.sqrt_mul_largest_le hA h least Entry.row he he')
    (hs.sqrt_mul_largest_le hA h least Entry.col he he')
    (mul_nonneg (Real.sqrt_nonneg _) (hpos _ _).le) (mul_nonneg (Real.sqrt_nonneg _) (hpos _ _).le)
  rwa [mul_mul_mul_comm, Real.mul_self_sqrt hnonneg, mul_mul_mul_comm,
    Real.mul_self_sqrt hnonneg'] at hmul

/-! ### Passes -/

omit hA in
theorem Positive.getD_balanceRows (h : f.Positive r v) (b : Balance) (least : ℝ) {i : ℕ}
    (hi : i < A.rows) :
    (f.balanceRows b (real least) A).getD i 1 =
      f.rows.getD i 1 * real (f.lineFactor b (real least) Entry.row A i).toReal := by
  rw [← (lineFactor_real f b least Entry.row A i).1]
  exact getD_times_lineFactor (by rw [h.rows, Vec.size_real]) hi

omit hA in
theorem Positive.getD_balanceCols (h : f.Positive r v) (b : Balance) (least : ℝ) {j : ℕ}
    (hj : j < A.cols) :
    (f.balanceCols b (real least) A).getD j 1 =
      f.cols.getD j 1 * real (f.lineFactor b (real least) Entry.col A j).toReal := by
  rw [← (lineFactor_real f b least Entry.col A j).1]
  exact getD_times_lineFactor (by rw [h.cols, Vec.size_real]) hj

/-- What is left when the rows are balanced. -/
theorem Positive.left_rows (h : f.Positive r v) (b : Balance) (least : ℝ) (he : A.Nonzero e)
    (hrows : f'.rows = f.balanceRows b (real least) A) (hcols : f'.cols = f.cols) :
    f'.left e = f.left e / (f.lineFactor b (real least) Entry.row A e.row).toReal := by
  have hreal := entry_real hA he.mem
  rw [h.left_eq_div hA he (lineFactor_real f b least Entry.row A e.row).2 one_pos
    (hrows ▸ h.getD_balanceRows b least hreal.row), mul_one]
  rw [hcols, h.cols, Vec.getD_real v ⟨e.col, hreal.col⟩, mul_real, mul_one]

/-- What is left when the columns are balanced. -/
theorem Positive.left_cols (h : f.Positive r v) (b : Balance) (least : ℝ) (he : A.Nonzero e)
    (hrows : f'.rows = f.rows) (hcols : f'.cols = f.balanceCols b (real least) A) :
    f'.left e = f.left e / (f.lineFactor b (real least) Entry.col A e.col).toReal := by
  have hreal := entry_real hA he.mem
  rw [h.left_eq_div hA he one_pos (lineFactor_real f b least Entry.col A e.col).2 ?_
    (hcols ▸ h.getD_balanceCols b least hreal.col), one_mul]
  rw [hrows, h.rows, Vec.getD_real r ⟨e.row, hreal.row⟩, mul_real, mul_one]

/-- What is left after a pass to the greatest magnitude. -/
theorem Positive.left_largests (h : f.Positive r v) (least : ℝ) (he : A.Nonzero e) :
    (Factors.pass .largest (real least) A f).left e =
      f.left e / ((f.lineFactor .largest (real least) Entry.row A e.row).toReal *
        (f.lineFactor .largest (real least) Entry.col A e.col).toReal) := by
  have hreal := entry_real hA he.mem
  exact h.left_eq_div hA he (lineFactor_real f _ least Entry.row A e.row).2
    (lineFactor_real f _ least Entry.col A e.col).2 (h.getD_balanceRows _ least hreal.row)
    (h.getD_balanceCols _ least hreal.col)

/-- The factors when the rows are balanced to the geometric mean, but not yet the columns. -/
def meanRows {α : Type} [Scalar α] (f : Factors α) (least : α) (A : SparseMatrix α) : Factors α :=
  { f with rows := f.balanceRows .geometricMean least A }

omit hA in
theorem Positive.meanRows (h : f.Positive r v) (least : ℝ) :
    ∃ r' : Fin A.rows → ℝ, (f.meanRows (real least) A).Positive r' v := by
  obtain ⟨r', hr', hrows⟩ := h.balanceRows rfl .geometricMean least
  exact ⟨r', hrows, h.cols, hr', h.col_pos⟩

/-- A pass drives no coefficients further apart. -/
theorem Spread.pass (hs : f.Spread A ρ) (h : f.Positive r v) (b : Balance) (least : ℝ) :
    (Factors.pass b (real least) A f).Spread A ρ := by
  cases b with
  | geometricMean =>
    -- The columns are balanced with the new factors of the rows.
    obtain ⟨r', hmean⟩ := h.meanRows (A := A) least
    have hrows : (f.meanRows (real least) A).Spread A ρ :=
      hs.divide_means hA h least Entry.row fun e he => h.left_rows hA _ least he rfl rfl
    exact hrows.divide_means hA hmean least Entry.col fun e he =>
      hmean.left_cols hA _ least he rfl rfl
  | largest => exact hs.divide_largests hA h least fun e he => h.left_largests hA least he

theorem Spread.passes (hs : f.Spread A ρ) (h : f.Positive r v) (b : Balance) (least : ℝ)
    (count : ℕ) : (Factors.passes b (real least) A count f).Spread A ρ := by
  induction count with
  | zero => exact hs
  | succ count ih =>
    obtain ⟨r', v', h'⟩ := h.passes (A := A) rfl rfl b least count
    exact ih.pass hA h' b least

/-! ### Passes without raised factors -/

omit hA

/-- In a pass to the geometric mean, what is typical of a line is nowhere less than the least
    factor allowed. -/
structure Unclamped {α : Type} [Scalar α] (f : Factors α) (least : α) (A : SparseMatrix α) :
    Prop where
  rows : ∀ range ∈ MagnitudeRange.ofLines Entry.row f.magnitude A.rows A.entries,
    ¬ Balance.geometricMean.typical range < least
  cols : ∀ range ∈ MagnitudeRange.ofLines Entry.col (f.meanRows least A).magnitude A.cols A.entries,
    ¬ Balance.geometricMean.typical range < least

include hA

/-- After such a pass, the extremes of a column are reciprocal. -/
theorem Positive.mul_eq_one_of_unclamped (h : f.Positive r v)
    (hfree : f.Unclamped (real least) A) (he : A.Nonzero e) :
    ∃ lo hi, IsLeast ((Factors.pass .geometricMean (real least) A f).leftIn A Entry.col e.col) lo ∧
      IsGreatest ((Factors.pass .geometricMean (real least) A f).leftIn A Entry.col e.col) hi ∧
      hi * lo = 1 := by
  obtain ⟨r', hmean⟩ := h.meanRows (A := A) least
  obtain ⟨lo, hi, hrange, hlo, hhi⟩ := hmean.exists_range hA Entry.col he
  have hlo0 := hmean.pos_of_mem_leftIn hA hlo.1
  have hhi0 := hmean.pos_of_mem_leftIn hA hhi.1
  have hmiddle : 0 < √(lo * hi) := Real.sqrt_pos.2 (mul_pos hlo0 hhi0)
  -- The factor of the column is the geometric mean of its extremes.
  have hfactor : ((f.meanRows (real least) A).lineFactor .geometricMean (real least) Entry.col A
      e.col).toReal = √(lo * hi) := by
    have hnot := hfree.cols _ (Array.mem_of_getElem? (MagnitudeRange.getElem?_ofLines
      (entry_real hA he.mem).col))
    rw [hrange, Balance.typical_real _ hlo0 hhi0, real_lt_real, not_lt] at hnot
    rw [lineFactor, hrange, Balance.factor_eq_max _ hlo0 hhi0, toReal_real, max_eq_left hnot]
    rfl
  have hleft : (Factors.pass .geometricMean (real least) A f).leftIn A Entry.col e.col =
      (· / √(lo * hi)) '' (f.meanRows (real least) A).leftIn A Entry.col e.col := by
    have hdiv (g : Entry Extended) (hg : A.Nonzero g) (hcol : g.col = e.col) :
        (Factors.pass .geometricMean (real least) A f).left g =
          (f.meanRows (real least) A).left g / √(lo * hi) := by
      have hpass : (Factors.pass .geometricMean (real least) A f).left g = _ :=
        hmean.left_cols hA .geometricMean least hg rfl rfl
      rw [hpass, hcol, hfactor]
    ext a
    constructor
    · rintro ⟨g, hg, hcol, rfl⟩
      exact ⟨_, ⟨g, hg, hcol, rfl⟩, (hdiv g hg hcol).symm⟩
    · rintro ⟨_, ⟨g, hg, hcol, rfl⟩, rfl⟩
      exact ⟨g, hg, hcol, hdiv g hg hcol⟩
  have hmono : Monotone fun a : ℝ => a / √(lo * hi) := fun a b hab =>
    div_le_div_of_nonneg_right hab hmiddle.le
  rw [hleft]
  refine ⟨_, _, hmono.map_isLeast hlo, hmono.map_isGreatest hhi, ?_⟩
  rw [div_mul_div_comm, Real.mul_self_sqrt (mul_pos hlo0 hhi0).le, mul_comm hi,
    div_self (mul_pos hlo0 hhi0).ne']

omit hA in
/-- If the extremes of each column are reciprocal, then so are those of all columns together. -/
theorem mul_eq_one_of_columns {lo hi : ℝ} (hpos : ∀ e, A.Nonzero e → 0 < f.left e)
    (hcols : ∀ e, A.Nonzero e → ∃ lo hi, IsLeast (f.leftIn A Entry.col e.col) lo ∧
      IsGreatest (f.leftIn A Entry.col e.col) hi ∧ hi * lo = 1)
    (hlo : IsLeast (f.leftIn A (fun _ => 0) 0) lo)
    (hhi : IsGreatest (f.leftIn A (fun _ => 0) 0) hi) : hi * lo = 1 := by
  have hsub {j : ℕ} {a : ℝ} (ha : a ∈ f.leftIn A Entry.col j) : a ∈ f.leftIn A (fun _ => 0) 0 := by
    obtain ⟨e, he, -, rfl⟩ := ha
    exact ⟨e, he, rfl, rfl⟩
  obtain ⟨g, hg, -, rfl⟩ := hlo.1
  obtain ⟨g', hg', -, rfl⟩ := hhi.1
  have hg0 := hpos g hg
  have hg0' := hpos g' hg'
  refine le_antisymm ?_ ?_
  · -- The column of the greatest one has its reciprocal.
    obtain ⟨a, b, ha, hb, hab⟩ := hcols g' hg'
    have hb' : f.left g' ≤ b := hb.2 ⟨g', hg', rfl, rfl⟩
    calc f.left g' * f.left g ≤ b * a :=
          mul_le_mul hb' (hlo.2 (hsub ha.1)) hg0.le (hg0'.le.trans hb')
      _ = 1 := hab
  · obtain ⟨a, b, ha, hb, hab⟩ := hcols g hg
    have ha' : a ≤ f.left g := ha.2 ⟨g, hg, rfl, rfl⟩
    have ha0 : 0 < a := by
      obtain ⟨k, hk, -, rfl⟩ := ha.1
      exact hpos k hk
    calc 1 = b * a := hab.symm
      _ ≤ f.left g' * f.left g := mul_le_mul (hhi.2 (hsub hb.1)) ha' ha0.le hg0'.le

/-! ### The ratio -/

/-- The extremes of what is left of all coefficients. -/
theorem Positive.exists_extremes (h : f.Positive r v) (he : A.Nonzero e) :
    ∃ lo hi, 0 < lo ∧ IsLeast (f.leftIn A (fun _ => 0) 0) lo ∧
      IsGreatest (f.leftIn A (fun _ => 0) 0) hi := by
  obtain ⟨lo, hi, -, hlo, hhi⟩ := h.exists_range hA (fun _ => 0) he
  exact ⟨lo, hi, h.pos_of_mem_leftIn hA hlo.1, hlo, hhi⟩

omit hA in
theorem spread_of_extremes {lo hi : ℝ} (hpos : 0 < lo)
    (hlo : IsLeast (f.leftIn A (fun _ => 0) 0) lo)
    (hhi : IsGreatest (f.leftIn A (fun _ => 0) 0) hi) : f.Spread A (hi / lo) := by
  intro e e' he he'
  have hle : f.left e ≤ hi := hhi.2 ⟨e, he, rfl, rfl⟩
  have hle' : lo ≤ f.left e' := hlo.2 ⟨e', he', rfl, rfl⟩
  have hhi0 : 0 ≤ hi := hpos.le.trans (hlo.2 hhi.1)
  calc f.left e ≤ hi := hle
    _ = hi / lo * lo := (div_mul_cancel₀ hi hpos.ne').symm
    _ ≤ hi / lo * f.left e' := mul_le_mul_of_nonneg_left hle' (div_nonneg hhi0 hpos.le)

omit hA in
theorem Spread.div_le (hs : f.Spread A ρ) {lo hi : ℝ} (hpos : 0 < lo)
    (hlo : IsLeast (f.leftIn A (fun _ => 0) 0) lo)
    (hhi : IsGreatest (f.leftIn A (fun _ => 0) 0) hi) : hi / lo ≤ ρ := by
  obtain ⟨g, hg, -, rfl⟩ := hlo.1
  obtain ⟨g', hg', -, rfl⟩ := hhi.1
  rw [div_le_iff₀ hpos]
  exact hs g' g hg' hg

/-- The magnitudes of a matrix whose entries are those of another one, divided by factors. -/
theorem Positive.magnitudesIn_eq (h : f.Positive r v) {B : SparseMatrix Extended}
    {line : Entry Extended → ℕ}
    (hto : ∀ e ∈ A.entries, ∃ e' ∈ B.entries, line e' = line e ∧
      Scalar.abs e'.value = f.magnitude e)
    (hfrom : ∀ e' ∈ B.entries, ∃ e ∈ A.entries, line e' = line e ∧
      Scalar.abs e'.value = f.magnitude e) (i : ℕ) :
    B.magnitudesIn line i = f.leftIn A line i := by
  ext a
  constructor
  · rintro ⟨ha, e', he', rfl, habs⟩
    obtain ⟨e, he, hline, hmagnitude⟩ := hfrom e' he'
    rw [habs] at hmagnitude
    have hnonzero : A.Nonzero e := (h.pos_magnitude_iff hA he).1 (by
      rw [← hmagnitude]
      exact real_lt_real.2 ha)
    exact ⟨e, hnonzero, hline.symm, by rw [left, ← hmagnitude, toReal_real]⟩
  · rintro ⟨e, he, rfl, rfl⟩
    obtain ⟨e', he', hline, hmagnitude⟩ := hto e he.mem
    exact ⟨h.left_pos hA he, e', he', hline, hmagnitude.trans (h.magnitude_eq_left hA he.mem)⟩

theorem magnitude_unit (he : e ∈ A.entries) : (unit A).magnitude e = Scalar.abs e.value := by
  have hreal := entry_real hA he
  rw [(positive_unit (A := A) rfl rfl).magnitude hreal, Pi.one_apply, Pi.one_apply, mul_one,
    div_one]
  conv_rhs => rw [eq_real_toReal hreal.value, abs_real]

end Factors

/-! ### Balanced problems -/

namespace Scaled

variable {p : Problem Extended} (hp : ∀ e ∈ p.matrix.entries, Scalar.isFinite e.value = true)

include hp

/-- The magnitudes of a balanced matrix are what the factors leave of the given one. -/
theorem magnitudesIn_balanced (means largests : ℕ) (least : ℝ) {line : Entry Extended → ℕ}
    (hline : ∀ (e : Entry Extended) a, line (e.withValue a) = line e) (i : ℕ) :
    (balanced p means largests (.real least)).problem.matrix.magnitudesIn line i =
      (Factors.balancing p.matrix means largests (.real least)).leftIn p.matrix line i := by
  rw [balanced]
  split
  · -- Without a pass the matrix is the given one, and all factors are one.
    rename_i hzero
    obtain ⟨rfl, rfl⟩ := hzero
    have hunit := Factors.positive_unit (A := p.matrix) rfl rfl
    exact hunit.magnitudesIn_eq hp
      (fun e he => ⟨e, he, rfl, (Factors.magnitude_unit hp he).symm⟩)
      (fun e he => ⟨e, he, rfl, (Factors.magnitude_unit hp he).symm⟩) i
  · obtain ⟨r, v, h⟩ := Factors.exists_positive_balancing (A := p.matrix) rfl rfl means largests
      least
    have hmem {e : Entry Extended} :
        e ∈ (p.matrix.reorder .byColumn).entries ↔ e ∈ p.matrix.entries :=
      (p.matrix.reorder_perm .byColumn).mem_iff
    refine h.magnitudesIn_eq hp (fun e he => ?_) (fun e' he' => ?_) i
    · exact ⟨_, List.mem_map.2 ⟨e, hmem.2 he, rfl⟩, hline e _, rfl⟩
    · obtain ⟨e, he, rfl⟩ := List.mem_map.1 he'
      exact ⟨e, hmem.1 he, hline e _, rfl⟩

theorem magnitudes_balanced (means largests : ℕ) (least : ℝ) :
    (balanced p means largests (.real least)).problem.matrix.magnitudes =
      (Factors.balancing p.matrix means largests (.real least)).leftIn p.matrix (fun _ => 0) 0 :=
  magnitudesIn_balanced hp means largests least (fun _ _ => rfl) 0

theorem column_balanced (means largests : ℕ) (least : ℝ) (j : ℕ) :
    (balanced p means largests (.real least)).problem.matrix.magnitudesIn Entry.col j =
      (Factors.balancing p.matrix means largests (.real least)).leftIn p.matrix Entry.col j :=
  magnitudesIn_balanced hp means largests least (fun _ _ => rfl) j

/-- If no pass drives coefficients further apart between two numbers of passes, then the ratio
    does not grow. -/
theorem ratio_balanced_le (hne : ∃ e, p.matrix.Nonzero e) {means means' largests largests' : ℕ}
    {least : ℝ}
    (hspread : ∀ ρ, (Factors.balancing p.matrix means largests (.real least)).Spread p.matrix ρ →
      (Factors.balancing p.matrix means' largests' (.real least)).Spread p.matrix ρ) :
    (balanced p means' largests' (.real least)).problem.matrix.ratio ≤
      (balanced p means largests (.real least)).problem.matrix.ratio := by
  obtain ⟨e, he⟩ := hne
  obtain ⟨r, v, h⟩ := Factors.exists_positive_balancing (A := p.matrix) rfl rfl means largests least
  obtain ⟨r', v', h'⟩ := Factors.exists_positive_balancing (A := p.matrix) rfl rfl means' largests'
    least
  obtain ⟨lo, hi, hpos, hlo, hhi⟩ := h.exists_extremes hp he
  obtain ⟨lo', hi', hpos', hlo', hhi'⟩ := h'.exists_extremes hp he
  have hle := (hspread _ (Factors.spread_of_extremes hpos hlo hhi)).div_le hpos' hlo' hhi'
  rw [← magnitudes_balanced hp] at hlo hhi hlo' hhi'
  rwa [SparseMatrix.ratio_eq hlo hhi, SparseMatrix.ratio_eq hlo' hhi']

/-- In exact arithmetic, and whatever the least factor allowed is, the coefficients of a balanced
    matrix that are not zero have a positive least and a greatest magnitude, with a ratio that no
    number of passes makes greater than the one of the given matrix, and that no further pass of
    either kind makes greater. After passes to the geometric mean in which no factor is raised,
    the extremes of each column with such a coefficient are reciprocal, and so are those of the
    whole matrix. -/
theorem ratio_balanced (hne : ∃ e, p.matrix.Nonzero e) (means largests : ℕ) (least : ℝ) :
    (∃ lo hi, 0 < lo ∧
      IsLeast (balanced p means largests (.real least)).problem.matrix.magnitudes lo ∧
      IsGreatest (balanced p means largests (.real least)).problem.matrix.magnitudes hi) ∧
    (balanced p means largests (.real least)).problem.matrix.ratio ≤ p.matrix.ratio ∧
    (balanced p (means + 1) 0 (.real least)).problem.matrix.ratio ≤
      (balanced p means 0 (.real least)).problem.matrix.ratio ∧
    (balanced p means (largests + 1) (.real least)).problem.matrix.ratio ≤
      (balanced p means largests (.real least)).problem.matrix.ratio ∧
    (0 < means →
      (∀ k < means, (Factors.balancing p.matrix k 0 (.real least)).Unclamped (.real least)
        p.matrix) →
      (∀ e, p.matrix.Nonzero e → ∃ lo hi,
        IsLeast ((balanced p means 0 (.real least)).problem.matrix.magnitudesIn Entry.col e.col)
          lo ∧
        IsGreatest ((balanced p means 0 (.real least)).problem.matrix.magnitudesIn Entry.col e.col)
          hi ∧ hi * lo = 1) ∧
      ∃ lo hi, IsLeast (balanced p means 0 (.real least)).problem.matrix.magnitudes lo ∧
        IsGreatest (balanced p means 0 (.real least)).problem.matrix.magnitudes hi ∧
        hi * lo = 1) := by
  have hunit := Factors.positive_unit (A := p.matrix) rfl rfl
  have hmeans (k : ℕ) := hunit.passes (A := p.matrix) rfl rfl .geometricMean least k
  obtain ⟨e, he⟩ := hne
  refine ⟨?_, ?_, ratio_balanced_le hp ⟨e, he⟩ fun ρ hs => ?_,
    ratio_balanced_le hp ⟨e, he⟩ fun ρ hs => ?_, fun hpos hfree => ?_⟩
  · obtain ⟨r, v, h⟩ := Factors.exists_positive_balancing (A := p.matrix) rfl rfl means largests
      least
    rw [magnitudes_balanced hp]
    exact h.exists_extremes hp he
  · have hgiven : (balanced p 0 0 (.real least)).problem.matrix = p.matrix := by
      rw [balanced, if_pos ⟨rfl, rfl⟩]
      rfl
    rw [← hgiven]
    refine ratio_balanced_le hp ⟨e, he⟩ fun ρ hs => ?_
    obtain ⟨r, v, h⟩ := hmeans means
    exact (hs.passes hp hunit .geometricMean least means).passes hp h .largest least largests
  · obtain ⟨r, v, h⟩ := hmeans means
    exact hs.pass hp h .geometricMean least
  · obtain ⟨r, v, h⟩ := Factors.exists_positive_balancing (A := p.matrix) rfl rfl means largests
      least
    exact hs.pass hp h .largest least
  · obtain ⟨k, rfl⟩ := Nat.exists_eq_add_one.2 hpos
    obtain ⟨r, v, h⟩ := hmeans k
    obtain ⟨r', v', h'⟩ := hmeans (k + 1)
    have hcols (e : Entry Extended) (he : p.matrix.Nonzero e) :=
      h.mul_eq_one_of_unclamped hp (hfree k (Nat.lt_succ_self k)) he
    obtain ⟨lo, hi, -, hlo, hhi⟩ := h'.exists_extremes hp he
    refine ⟨fun g hg => ?_, ?_⟩
    · rw [column_balanced hp]
      exact hcols g hg
    · rw [magnitudes_balanced hp]
      exact ⟨lo, hi, hlo, hhi,
        Factors.mul_eq_one_of_columns (fun g hg => h'.left_pos hp hg) hcols hlo hhi⟩

end Scaled

/-- What is typical of a line is never negative, so a least factor that is not positive raises
    none. -/
theorem Factors.unclamped_of_nonpos (f : Factors Extended) (A : SparseMatrix Extended) {least : ℝ}
    (h : least ≤ 0) : f.Unclamped (.real least) A := by
  have hsqrt (a : Extended) : ¬ Scalar.sqrt a < real least := by
    cases a with
    | real x =>
      rcases lt_or_ge x 0 with hx | hx
      · rw [show Scalar.sqrt (real x) = undefined from if_pos hx]
        exact id
      · rw [sqrt_real hx, real_lt_real, not_lt]
        exact h.trans (Real.sqrt_nonneg x)
    | top | bot | undefined => exact id
  exact ⟨fun range _ => hsqrt _, fun range _ => hsqrt _⟩

theorem Problem.nonzero_blend : blend.matrix.Nonzero ⟨0, 0, .real 4⟩ :=
  ⟨by simp [entries_blend], by simp [zero_eq]⟩

theorem Problem.magnitudes_blend : blend.matrix.magnitudes = {4, 1 / 2, 1, 1 / 4} := by
  have habs : |(-1 / 2 : ℝ)| = 1 / 2 := by norm_num
  ext a
  simp only [SparseMatrix.magnitudes, SparseMatrix.magnitudesIn, entries_blend]
  constructor
  · rintro ⟨-, e, he, -, ha⟩
    fin_cases he <;> simp_all
  · rintro (rfl | rfl | rfl | rfl) <;> norm_num [habs]

theorem Problem.ratio_blend : blend.matrix.ratio = 16 := by
  have hlo : IsLeast blend.matrix.magnitudes (1 / 4) := by
    rw [magnitudes_blend]
    exact ⟨by simp, by norm_num [lowerBounds]⟩
  have hhi : IsGreatest blend.matrix.magnitudes 4 := by
    rw [magnitudes_blend]
    exact ⟨by simp, by norm_num [upperBounds]⟩
  rw [SparseMatrix.ratio_eq hlo hhi]
  norm_num

/-- The small problem, balanced by two passes to the geometric mean and a pass to the greatest
    magnitude. Without the last pass, its matrix is left with reciprocal extremes. -/
theorem Scaled.ratio_balanced_blend :
    (balanced .blend 2 1 (.real 0)).problem.matrix.ratio ≤ 16 ∧
      ∃ lo hi, IsLeast (balanced .blend 2 0 (.real 0)).problem.matrix.magnitudes lo ∧
        IsGreatest (balanced .blend 2 0 (.real 0)).problem.matrix.magnitudes hi ∧ hi * lo = 1 := by
  obtain ⟨-, hratio, -, -, hfree⟩ :=
    ratio_balanced Problem.isFinite_blend.matrix ⟨_, Problem.nonzero_blend⟩ 2 1 0
  exact ⟨hratio.trans_eq Problem.ratio_blend,
    (hfree two_pos fun k _ => Factors.unclamped_of_nonpos _ _ le_rfl).2⟩

end HybridGradient
