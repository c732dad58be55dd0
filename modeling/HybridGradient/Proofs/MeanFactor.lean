import HybridGradient.Proofs.BalancedProblem
import HybridGradient.Proofs.CoefficientRange
import HybridGradient.Proofs.NormalizedVectors
import HybridGradient.Proofs.RoundedRoots

/-!
# Whether a mean is between the extremes

A pass to the geometric mean takes the root of the least magnitude of a line times the greatest.
Exactly computed, it lies between the two. In binary arithmetic this holds as well if their
product is a normal number. But a product that is too large or too small leaves no positive
number to take the root of, and then the line has the factor of an empty one, although all its
magnitudes are on one side of it. A product with few digits is near enough only if the least
factor allowed hides the difference.

* `MagnitudeRange.extremes_foldl_insert`: the range of a line of positive numbers consists of its
  extremes;
* `Balance.IsMean`: what a factor is to the extremes of its line;
* `Factors.pass_geometricMean`: the factors by which a pass multiplies those of the lines;
* `Factors.misses_extreme_coefficients`: lines with the factor one whose only magnitude is far from
  it.
-/

namespace HybridGradient

open Extended Float.Model Rounding Binary

/-! ### The extremes of a line -/

section Extremes

variable {α : Type} [Scalar α] [Binary α] [LawfulBinary α] {s : Set α} {a b : α}

theorem isLeast_insert_lesser (hs : ∀ v ∈ s, IsPositive v) (h : IsLeast s a) (hb : IsPositive b) :
    IsLeast (insert b s) (Scalar.lesser a b) := by
  obtain ⟨x, hx, -⟩ := hs a h.1
  obtain ⟨y, hy, -⟩ := hb
  refine ⟨?_, ?_⟩
  · rw [Scalar.lesser]
    split
    · exact .inr h.1
    · exact .inl rfl
  · rintro v (rfl | hv)
    · rw [le_iff, value_lesser hx hy, hy, real_le_real]
      exact min_le_right x y
    · obtain ⟨z, hz, -⟩ := hs v hv
      have hle := h.2 hv
      rw [le_iff, hx, hz, real_le_real] at hle
      rw [le_iff, value_lesser hx hy, hz, real_le_real]
      exact (min_le_left x y).trans hle

theorem isGreatest_insert_greater (hs : ∀ v ∈ s, IsPositive v) (h : IsGreatest s a)
    (hb : IsPositive b) : IsGreatest (insert b s) (Scalar.greater a b) := by
  obtain ⟨x, hx, -⟩ := hs a h.1
  obtain ⟨y, hy, -⟩ := hb
  refine ⟨?_, ?_⟩
  · rw [Scalar.greater]
    split
    · exact .inr h.1
    · exact .inl rfl
  · rintro v (rfl | hv)
    · rw [le_iff, value_greater hx hy, hy, real_le_real]
      exact le_max_right x y
    · obtain ⟨z, hz, -⟩ := hs v hv
      have hle := h.2 hv
      rw [le_iff, hx, hz, real_le_real] at hle
      rw [le_iff, value_greater hx hy, hz, real_le_real]
      exact hle.trans (le_max_left x y)

/-- The range that collects positive numbers consists of the least and the greatest of them. -/
theorem MagnitudeRange.extremes_foldl_insert {ms : List α} (hms : ∀ v ∈ ms, IsPositive v)
    (hne : ms ≠ []) : IsLeast {v | v ∈ ms} (ms.foldl insert empty).least ∧
      IsGreatest {v | v ∈ ms} (ms.foldl insert empty).greatest := by
  induction ms using List.reverseRecOn with
  | nil => exact absurd rfl hne
  | append_singleton ms v ih =>
    have hv : IsPositive v := hms v (by simp)
    rw [List.foldl_append, List.foldl_cons, List.foldl_nil]
    rcases eq_or_ne ms [] with rfl | hms'
    · have hself : ∀ w ∈ [v], w ≤ v ∧ v ≤ w := by
        obtain ⟨a, ha, -⟩ := hv
        intro w hw
        rw [List.mem_singleton.1 hw, le_iff, ha]
        exact ⟨real_le_real.2 le_rfl, real_le_real.2 le_rfl⟩
      rw [List.foldl_nil, insert_empty hv, List.nil_append]
      exact ⟨⟨List.mem_singleton_self v, fun w hw => (hself w hw).2⟩,
        List.mem_singleton_self v, fun w hw => (hself w hw).1⟩
    · have hold : ∀ w ∈ ms, IsPositive w := fun w hw => hms w (List.mem_append_left _ hw)
      obtain ⟨hleast, hgreatest⟩ := ih hold hms'
      have hset : {w | w ∈ ms ++ [v]} = Insert.insert v {w | w ∈ ms} := by
        ext w
        simp [or_comm]
      rw [hset]
      exact ⟨isLeast_insert_lesser hold hleast hv, isGreatest_insert_greater hold hgreatest hv⟩

end Extremes

/-! ### Means of two numbers -/

namespace Balance

variable {α : Type} [Scalar α] [Binary α] [LawfulBinary α] {least lo hi : α}

/-- What the factor `t` of a pass to the geometric mean is to the extremes of a line and the least
    factor allowed. -/
structure IsMean (least lo hi t : α) : Prop where
  /-- It lies between the two, each raised to the least factor, if their product is a normal number
      or the least factor is no less than the root of the least normal number. -/
  between : IsPositive (lo * hi) →
    .real (leastNormal (format α)) ≤ value (lo * hi) ∨
      .real √(leastNormal (format α)) ≤ value least →
    Scalar.greater lo least ≤ t ∧ t ≤ Scalar.greater hi least
  /-- If the product is any positive number, it is no less than a third of the one and no more than
      three times the other. -/
  near : IsPositive (lo * hi) → ∃ a b c : ℝ, value (Scalar.greater lo least) = .real a ∧
    value t = .real b ∧ value (Scalar.greater hi least) = .real c ∧ a ≤ 3 * b ∧ b ≤ 3 * c
  /-- If the product is too large, it is one, and both extremes are greater. -/
  of_overflow : Scalar.isFinite (lo * hi) = false → t = 1 ∧ 1 < lo
  /-- If the product is too small, it is one, and both extremes are less. -/
  of_underflow : ¬ 0 < lo * hi → t = 1 ∧ hi < 1

/-- If the product is no positive number, the factor is one. -/
theorem mean_factor_eq_one (hp : ¬ IsPositive (lo * hi)) :
    geometricMean.factor least ⟨lo, hi⟩ = 1 := by
  refine if_neg fun hroot => hp ?_
  obtain ⟨r, hr, hrpos⟩ := isFinite_and_pos_iff.1 hroot
  obtain ⟨p, hp, hpos, -⟩ := exists_of_sqrt_pos hr hrpos
  exact ⟨p, hp, hpos⟩

section

variable {a b l : ℝ} (hlo : value lo = .real a) (hhi : value hi = .real b)
  (hleast : value least = .real l) (ha : 0 < a) (hab : a ≤ b)

include hlo hhi hleast

/-- The factor by values, if the product is a positive number. -/
theorem exists_value_mean (hp : IsPositive (lo * hi)) :
    ∃ p r : ℝ, value (lo * hi) = .real p ∧ 0 < p ∧ 0 < r ∧ Nearest (format α) (a * b) p ∧
      Nearest (format α) √p r ∧
      value (geometricMean.factor least ⟨lo, hi⟩) = .real (max r l) := by
  obtain ⟨r, hroot, hrpos⟩ := hp.sqrt
  obtain ⟨p, hpvalue, hpos, hr⟩ := exists_of_sqrt_pos hroot hrpos
  refine ⟨p, r, hpvalue, hpos, hrpos, ?_, hr, ?_⟩
  · have hrounds := rounds_mul hlo hhi
    rw [hpvalue] at hrounds
    cases hrounds with
    | real h _ => exact h
  · have hfactor : geometricMean.factor least ⟨lo, hi⟩ =
        Scalar.greater (Scalar.sqrt (lo * hi)) least :=
      if_pos (isFinite_and_pos_iff.2 (⟨r, hroot, hrpos⟩ : IsPositive (Scalar.sqrt (lo * hi))))
    rw [hfactor, value_greater hroot hleast]

include ha hab

theorem mean_between (hp : IsPositive (lo * hi))
    (hnormal : .real (leastNormal (format α)) ≤ value (lo * hi) ∨
      .real √(leastNormal (format α)) ≤ value least) :
    Scalar.greater lo least ≤ geometricMean.factor least ⟨lo, hi⟩ ∧
      geometricMean.factor least ⟨lo, hi⟩ ≤ Scalar.greater hi least := by
  obtain ⟨p, r, hpvalue, -, -, hproduct, hr, hfactor⟩ := exists_value_mean hlo hhi hleast hp
  suffices h : max a l ≤ max r l ∧ max r l ≤ max b l by
    refine ⟨le_iff.2 ?_, le_iff.2 ?_⟩
    · rw [value_greater hlo hleast, hfactor]
      exact real_le_real.2 h.1
    · rw [value_greater hhi hleast, hfactor]
      exact real_le_real.2 h.2
  rw [hpvalue, hleast, real_le_real, real_le_real] at hnormal
  rcases le_or_gt (leastNormal (format α)) p with hle | hlt
  · obtain ⟨har, hrb⟩ := hproduct.between_of_normal hr ha hab two_le_exponentBits hle
      (representable hlo).1 (representable hhi).1
    exact ⟨max_le_max_right l har, max_le_max_right l hrb⟩
  · -- The root and the least magnitude are both raised to the least factor.
    obtain ⟨hal, hrl⟩ := hproduct.le_of_not_normal hr ha hab hlt (representable hleast).1
      (hnormal.resolve_left hlt.not_ge)
    rw [max_eq_right hal, max_eq_right hrl]
    exact ⟨le_rfl, le_max_right b l⟩

theorem mean_near (hp : IsPositive (lo * hi)) (hl : 0 < l) :
    ∃ x y z : ℝ, value (Scalar.greater lo least) = .real x ∧
      value (geometricMean.factor least ⟨lo, hi⟩) = .real y ∧
      value (Scalar.greater hi least) = .real z ∧ x ≤ 3 * y ∧ y ≤ 3 * z := by
  obtain ⟨p, r, -, hpos, hrpos, hproduct, hr, hfactor⟩ := exists_value_mean hlo hhi hleast hp
  obtain ⟨har, hrb⟩ := hproduct.near_of_pos hr ha hab hpos hrpos
  have hthree {x y : ℝ} (h : x ≤ 3 * y) : max x l ≤ 3 * max y l := by
    rw [mul_max_of_nonneg _ _ zero_le_three]
    exact max_le_max h (by linarith)
  exact ⟨_, _, _, value_greater hlo hleast, hfactor, value_greater hhi hleast, hthree har,
    hthree hrb⟩

theorem isMean_factor (hl : 0 < l) :
    IsMean least lo hi (geometricMean.factor least ⟨lo, hi⟩) := by
  have hbpos := ha.trans_le hab
  have hrounds := rounds_mul hlo hhi
  refine ⟨mean_between hlo hhi hleast ha hab, fun hp => mean_near hlo hhi hleast ha hab hp hl,
    fun hinfinite => ⟨mean_factor_eq_one fun hp => ?_, ?_⟩,
    fun hzero => ⟨mean_factor_eq_one fun hp => hzero hp.pos, ?_⟩⟩
  · rw [(isFinite_and_pos_iff.2 hp).1] at hinfinite
    exact nomatch hinfinite
  · -- No product with a number up to one would be greater than the greatest magnitude.
    rw [lt_iff, value_one, hlo, real_lt_real]
    by_contra! hle
    obtain ⟨q, hq, -⟩ := hrounds.exists_abs_le (representable hhi).1
      ((le_abs_self b).trans_lt (representable hhi).2)
      ((abs_of_pos (mul_pos ha hbpos)).trans_le (mul_le_of_le_one_left hbpos.le hle))
    rw [Binary.isFinite_iff.2 ⟨q, hq⟩] at hinfinite
    exact nomatch hinfinite
  · -- No product with a number from one on would be less than the least magnitude.
    rw [lt_iff, value_one, hhi, real_lt_real]
    by_contra! hle
    have hge := hrounds.ge (representable hlo).1 (representable hlo).2
      (le_mul_of_one_le_right ha.le hle)
    refine hzero ?_
    rw [lt_iff, value_zero]
    exact Extended.lt_of_lt_of_le ha hge

end

end Balance

/-! ### A pass to the geometric mean -/

/-- A matrix with a single coefficient. -/
def SparseMatrix.ofCoefficient {α : Type} [Add α] (x : α) : SparseMatrix α :=
  .ofEntries 1 1 .byColumn [⟨0, 0, x⟩] (by simp)

namespace Factors

section

variable {α : Type} [Scalar α]

/-- The magnitudes that factors leave in a line, apart from zeros. -/
def magnitudesIn (f : Factors α) (A : SparseMatrix α) (line : Entry α → ℕ) (i : ℕ) : Set α :=
  {v | ∃ e ∈ A.entries, line e = i ∧ 0 < f.magnitude e ∧ f.magnitude e = v}

theorem magnitudesIn_eq (f : Factors α) (A : SparseMatrix α) (line : Entry α → ℕ) (i : ℕ) :
    f.magnitudesIn A line i = {v | v ∈ MagnitudeRange.inLine line f.magnitude A.entries i} :=
  Set.ext fun _ => MagnitudeRange.mem_inLine.symm

/-- The factor of a line is not between its extremes, each raised to the least factor. -/
def Misses (f : Factors α) (least : α) (A : SparseMatrix α) (line : Entry α → ℕ) (i : ℕ) : Prop :=
  ∃ lo hi, IsLeast (f.magnitudesIn A line i) lo ∧ IsGreatest (f.magnitudesIn A line i) hi ∧
    ¬ (Scalar.greater lo least ≤ f.lineFactor .geometricMean least line A i ∧
      f.lineFactor .geometricMean least line A i ≤ Scalar.greater hi least)

theorem misses_of_inLine {f : Factors α} {least : α} {A : SparseMatrix α} {line : Entry α → ℕ}
    {i : ℕ} {x : α} (hline : MagnitudeRange.inLine line f.magnitude A.entries i = [x])
    (hx : x ≤ x)
    (hmiss : ¬ (Scalar.greater x least ≤ f.lineFactor .geometricMean least line A i ∧
      f.lineFactor .geometricMean least line A i ≤ Scalar.greater x least)) :
    f.Misses least A line i := by
  have hset : f.magnitudesIn A line i = {x} := by
    rw [magnitudesIn_eq, hline]
    ext v
    exact List.mem_singleton
  refine ⟨x, x, ?_, ?_, hmiss⟩
  · rw [hset]
    exact ⟨rfl, fun v hv => Set.mem_singleton_iff.1 hv ▸ hx⟩
  · rw [hset]
    exact ⟨rfl, fun v hv => Set.mem_singleton_iff.1 hv ▸ hx⟩

/-- A finite coefficient that is the only one of a matrix has the factor one in a first pass, and
    is not near to one. -/
def MissesAlone (least x : α) : Prop :=
  Scalar.isFinite x = true ∧ (unit (.ofCoefficient x)).scaledValue ⟨0, 0, x⟩ = x ∧
    (unit (.ofCoefficient x)).lineFactor .geometricMean least Entry.row (.ofCoefficient x) 0 = 1 ∧
    (unit (.ofCoefficient x)).Misses least (.ofCoefficient x) Entry.row 0

theorem missesAlone_of_inLine {least x : α} (hfinite : Scalar.isFinite x = true)
    (hscaled : (unit (.ofCoefficient x)).scaledValue ⟨0, 0, x⟩ = x)
    (hone : (unit (.ofCoefficient x)).lineFactor .geometricMean least Entry.row
      (.ofCoefficient x) 0 = 1)
    (hline : MagnitudeRange.inLine Entry.row (unit (.ofCoefficient x)).magnitude
      (SparseMatrix.ofCoefficient x).entries 0 = [x]) (hx : x ≤ x)
    (hmiss : ¬ (Scalar.greater x least ≤ 1 ∧ 1 ≤ Scalar.greater x least)) :
    MissesAlone least x :=
  ⟨hfinite, hscaled, hone, misses_of_inLine hline hx (by rwa [hone])⟩

end

variable {α : Type} [Scalar α] [Binary α] [LawfulBinary α] {A : SparseMatrix α} {f : Factors α}
  {least : α} {line : Entry α → ℕ} {i : ℕ}

/-- The factor of a pass for a line is a mean of its magnitudes. -/
structure Means (f : Factors α) (least : α) (A : SparseMatrix α) (line : Entry α → ℕ) (i : ℕ) :
    Prop where
  /-- A line without magnitudes has the factor one. -/
  empty : f.magnitudesIn A line i = ∅ → f.lineFactor .geometricMean least line A i = 1
  /-- A line of finite numbers that are not all zero has a mean of the least and the greatest. -/
  mean : (∀ e ∈ A.entries, line e = i → Scalar.isFinite (f.scaledValue e) = true) →
    (∃ e ∈ A.entries, line e = i ∧ (f.scaledValue e == 0) = false) →
    ∃ lo hi, IsLeast (f.magnitudesIn A line i) lo ∧ IsGreatest (f.magnitudesIn A line i) hi ∧
      Balance.IsMean least lo hi (f.lineFactor .geometricMean least line A i)

/-- A finite number that is not zero has a magnitude that is a positive number. -/
theorem isPositive_magnitude {e : Entry α} (hfinite : Scalar.isFinite (f.scaledValue e) = true)
    (hne : (f.scaledValue e == 0) = false) : IsPositive (f.magnitude e) := by
  obtain ⟨a, ha⟩ := Binary.isFinite_iff.1 hfinite
  refine ⟨|a|, by rw [magnitude, value_abs, ha]; rfl, abs_pos.2 ?_⟩
  rintro rfl
  rw [← Bool.not_eq_true, beq_iff, ha, value_zero] at hne
  exact hne ⟨rfl, by simp⟩

/-- A positive magnitude of a finite number is one of a positive number. -/
theorem isPositive_of_mem_magnitudesIn
    (hfinite : ∀ e ∈ A.entries, line e = i → Scalar.isFinite (f.scaledValue e) = true) {v : α}
    (hv : v ∈ f.magnitudesIn A line i) : IsPositive v := by
  obtain ⟨e, he, hline, hpos, rfl⟩ := hv
  refine isPositive_magnitude (hfinite e he hline) ?_
  rw [← Bool.not_eq_true]
  intro hzero
  obtain ⟨hvalue, -⟩ := beq_iff.1 hzero
  rw [lt_iff, magnitude, value_abs, hvalue, value_zero] at hpos
  exact absurd hpos (by simp [Extended.abs])

theorem means (hleast : IsPositive least) (f : Factors α) (A : SparseMatrix α)
    (line : Entry α → ℕ) (i : ℕ) : f.Means least A line i where
  empty hempty := by
    have hnil : MagnitudeRange.inLine line f.magnitude A.entries i = [] := by
      rw [List.eq_nil_iff_forall_not_mem]
      intro v hv
      rw [magnitudesIn_eq] at hempty
      exact Set.notMem_empty v (hempty ▸ hv)
    rw [lineFactor, hnil]
    exact Balance.geometricMean.factor_empty least
  mean hfinite hne := by
    obtain ⟨e, he, hline, hvalue⟩ := hne
    obtain ⟨l, hl, hlpos⟩ := hleast
    have hpositive {v : α} (hv : v ∈ MagnitudeRange.inLine line f.magnitude A.entries i) :
        IsPositive v :=
      isPositive_of_mem_magnitudesIn hfinite (MagnitudeRange.mem_inLine.1 hv)
    have hmem : f.magnitude e ∈ MagnitudeRange.inLine line f.magnitude A.entries i :=
      MagnitudeRange.mem_inLine.2
        ⟨e, he, hline, (isPositive_magnitude (hfinite e he hline) hvalue).pos, rfl⟩
    obtain ⟨hlo, hhi⟩ := MagnitudeRange.extremes_foldl_insert (fun v => hpositive)
      (List.ne_nil_of_mem hmem)
    obtain ⟨a, ha, hapos⟩ := hpositive hlo.1
    obtain ⟨b, hb, -⟩ := hpositive hhi.1
    have hab := hlo.2 hhi.1
    rw [le_iff, ha, hb, real_le_real] at hab
    rw [magnitudesIn_eq]
    exact ⟨_, _, hlo, hhi, Balance.isMean_factor ha hb hl hapos hab hlpos⟩

/-- A pass to the geometric mean multiplies the factor of every row by a mean of what the factors
    leave in the row, and then that of every column by a mean of what the new factors of the rows
    and the old ones of the columns leave there. -/
theorem pass_geometricMean (hr : f.rows.size = A.rows) (hc : f.cols.size = A.cols)
    (hfinite : Scalar.isFinite least = true) (hpos : 0 < least) :
    (∀ i < A.rows, (pass .geometricMean least A f).rows.getD i 1 =
        f.rows.getD i 1 * f.lineFactor .geometricMean least Entry.row A i ∧
      f.Means least A Entry.row i) ∧
    ∀ j < A.cols, (pass .geometricMean least A f).cols.getD j 1 =
        f.cols.getD j 1 *
          (f.meanRows least A).lineFactor .geometricMean least Entry.col A j ∧
      (f.meanRows least A).Means least A Entry.col j := by
  have hleast := isFinite_and_pos_iff.1 ⟨hfinite, hpos⟩
  exact ⟨fun i hi => ⟨getD_times_lineFactor hr hi, means hleast _ _ _ _⟩,
    fun j hj => ⟨getD_times_lineFactor hc hj, means hleast _ _ _ _⟩⟩

/-- The product of the extremes of a list, if it is a positive number for all pairs of which the
    extremes can be one. -/
theorem isPositive_mul_of_extremes {ms : List α} (h : ∀ lo ∈ ms, ∀ hi ∈ ms, (∀ v ∈ ms, lo ≤ v) →
      (∀ v ∈ ms, v ≤ hi) → Scalar.isFinite (lo * hi) = true ∧ 0 < lo * hi) {lo hi : α}
    (hlo : IsLeast {v | v ∈ ms} lo) (hhi : IsGreatest {v | v ∈ ms} hi) : IsPositive (lo * hi) :=
  isFinite_and_pos_iff.1
    (h lo hlo.1 hi hhi.1 (fun _ hv => hlo.2 hv) (fun _ hv => hhi.2 hv))

/-- The first row of the uneven square, and the uneven row, in a first pass that allows no factor
    less than one. -/
theorem pass_geometricMean_uneven :
    (∃ lo hi t : Float,
      IsLeast ((unit .unevenSquare).magnitudesIn .unevenSquare Entry.row 0) lo ∧
      IsGreatest ((unit .unevenSquare).magnitudesIn .unevenSquare Entry.row 0) hi ∧
      (pass .geometricMean 1 .unevenSquare (unit .unevenSquare)).rows.getD 0 1 = 1 * t ∧
      Scalar.greater lo 1 ≤ t ∧ t ≤ Scalar.greater hi 1) ∧
    ∃ lo hi t : Float32,
      IsLeast ((unit .unevenRow).magnitudesIn .unevenRow Entry.row 0) lo ∧
      IsGreatest ((unit .unevenRow).magnitudesIn .unevenRow Entry.row 0) hi ∧
      (pass .geometricMean 1 .unevenRow (unit .unevenRow)).rows.getD 0 1 = 1 * t ∧
      Scalar.greater lo 1 ≤ t ∧ t ≤ Scalar.greater hi 1 := by
  have hroot {β : Type} [Scalar β] [Binary β] [LawfulBinary β] :
      .real √(leastNormal (format β)) ≤ value (1 : β) := by
    rw [value_one, real_le_real]
    exact Real.sqrt_le_one.2 (leastNormal_le_one two_le_exponentBits)
  constructor
  · obtain ⟨hpass, hmeans⟩ := (pass_geometricMean (A := .unevenSquare) (f := unit .unevenSquare)
      (Vec.size_ones _) (Vec.size_ones _) (by decide +kernel : Scalar.isFinite (1 : Float) = true)
      (by decide +kernel)).1 0 (by decide)
    obtain ⟨lo, hi, hlo, hhi, hmean⟩ := hmeans.mean (by decide +kernel) (by decide +kernel)
    refine ⟨lo, hi, _, hlo, hhi, hpass, hmean.between ?_ (.inr hroot)⟩
    rw [magnitudesIn_eq] at hlo hhi
    exact isPositive_mul_of_extremes (by decide +kernel) hlo hhi
  · obtain ⟨hpass, hmeans⟩ := (pass_geometricMean (A := .unevenRow) (f := unit .unevenRow)
      (Vec.size_ones _) (Vec.size_ones _) (by decide +kernel : Scalar.isFinite (1 : Float32) = true)
      (by decide +kernel)).1 0 (by decide)
    obtain ⟨lo, hi, hlo, hhi, hmean⟩ := hmeans.mean (by decide +kernel) (by decide +kernel)
    refine ⟨lo, hi, _, hlo, hhi, hpass, hmean.between ?_ (.inr hroot)⟩
    rw [magnitudesIn_eq] at hlo hhi
    exact isPositive_mul_of_extremes (by decide +kernel) hlo hhi

/-- In binary64 the coefficients `1e200` and `1e-200`, and in binary32 `1e30` and `1e-30`, have
    factors that are no means, with the least factor of a run that is told nothing. -/
theorem misses_extreme_coefficients :
    ((0 : Float) < Scalar.tenth 12 ∧ Scalar.isFinite (Scalar.tenth 12 : Float) = true ∧
      MissesAlone (Scalar.tenth 12) (Float.ofBits 0x6974E718D7D7625A) ∧
      MissesAlone (Scalar.tenth 12) (Float.ofBits 0x16687E92154EF7AC)) ∧
    (0 : Float32) < Scalar.tenth 12 ∧ Scalar.isFinite (Scalar.tenth 12 : Float32) = true ∧
      MissesAlone (Scalar.tenth 12) (Float32.ofBits 0x7149F2CA) ∧
      MissesAlone (Scalar.tenth 12) (Float32.ofBits 0x0DA24260) := by
  refine ⟨⟨by decide +kernel, by decide +kernel, ?_, ?_⟩, by decide +kernel, by decide +kernel,
    ?_, ?_⟩
  all_goals refine missesAlone_of_inLine ?_ ?_ ?_ ?_ ?_ ?_ <;> decide +kernel

end Factors

end HybridGradient
