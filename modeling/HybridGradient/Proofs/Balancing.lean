import HybridGradient.Proofs.Examination
import HybridGradient.Proofs.Run

/-!
# Balanced problems are scaled programs

Whatever the passes of balancing find in a matrix, the factors that they come to are
positive real numbers: a factor that would not be one is replaced. So a balanced problem
is the given program with its lines scaled, and so is the scaled problem of every run.

* `Factors.exists_positive_balancing`: the factors are positive real numbers;
* `Scaled.exists_scales_balanced`, `Params.exists_scales`: balanced problems and those
  of runs are scaled programs.
-/

namespace HybridGradient

open Extended Matrix

variable {m n : ℕ}

/-! ### Factors -/

/-- A factor is never less than what is replaced by it. -/
theorem greater_real_pos {a : ℝ} (b : ℝ) (ha : 0 < a) :
    ∃ t, 0 < t ∧ Scalar.greater (real a) (real b) = real t := by
  rw [Scalar.greater]
  split
  · exact ⟨a, ha, rfl⟩
  · rename_i h
    rw [not_or, real_lt_real, not_lt] at h
    exact ⟨b, ha.trans_le h.1, rfl⟩

/-- The factor of a line is a positive real number, whatever its magnitudes are. -/
theorem Balance.factor_real (b : Balance) (least : ℝ) (range : MagnitudeRange Extended) :
    ∃ t, 0 < t ∧ b.factor (real least) range = real t := by
  -- The two ways to balance differ in what is typical of a line, and in nothing else.
  obtain ⟨typical, htypical⟩ : ∃ typical, b.factor (real least) range =
      if Scalar.isFinite typical ∧ 0 < typical then Scalar.greater typical (real least) else 1 := by
    cases b with
    | geometricMean => exact ⟨_, rfl⟩
    | largest => exact ⟨_, rfl⟩
  rw [htypical]
  split
  · rename_i h
    obtain ⟨a, ha⟩ := isFinite_iff.1 h.1
    rw [ha] at h ⊢
    exact greater_real_pos least (zero_lt_real.1 h.2)
  · exact ⟨1, one_pos, rfl⟩

/-- A vector of positive real numbers. -/
theorem Vec.exists_real_pos {v : Vec Extended} (hs : v.size = n)
    (h : ∀ a ∈ v, ∃ t, 0 < t ∧ a = .real t) :
    ∃ x : Fin n → ℝ, (∀ j, 0 < x j) ∧ v = real x := by
  choose x hx using fun j : Fin n => h v[j.cast hs.symm] (Array.getElem_mem _)
  exact ⟨x, fun j => (hx j).1, eq_real hs fun j => (hx j).2⟩

/-- The factors of lines are positive real numbers. -/
theorem Balance.exists_factors (b : Balance) (least : ℝ)
    {ranges : Array (MagnitudeRange Extended)} (hs : ranges.size = n) :
    ∃ t : Fin n → ℝ, (∀ j, 0 < t j) ∧ ranges.map (b.factor (real least)) = Vec.real t := by
  refine Vec.exists_real_pos (by rw [Array.size_map, hs]) fun a ha => ?_
  obtain ⟨range, -, rfl⟩ := Array.mem_map.1 ha
  exact b.factor_real least range

namespace Factors

/-- Factors that are positive real numbers. -/
structure Positive (f : Factors Extended) (r : Fin m → ℝ) (v : Fin n → ℝ) : Prop where
  rows : f.rows = Vec.real r
  cols : f.cols = Vec.real v
  row_pos : ∀ i, 0 < r i
  col_pos : ∀ j, 0 < v j

variable {A : SparseMatrix Extended} {f : Factors Extended} {r : Fin m → ℝ} {v : Fin n → ℝ}

theorem Positive.balanceRows (h : f.Positive r v) (hA : A.rows = m) (b : Balance) (least : ℝ) :
    ∃ r' : Fin m → ℝ, (∀ i, 0 < r' i) ∧ f.balanceRows b (.real least) A = Vec.real r' := by
  obtain ⟨t, ht, heq⟩ := b.exists_factors (n := m) least
    (show (MagnitudeRange.ofLines Entry.row f.magnitude A.rows A.entries).size = m by simp [hA])
  exact ⟨r * t, fun i => mul_pos (h.row_pos i) (ht i), by
    rw [Factors.balanceRows, h.rows, heq, Vec.times_real]⟩

theorem Positive.balanceCols (h : f.Positive r v) (hA : A.cols = n) (b : Balance) (least : ℝ) :
    ∃ v' : Fin n → ℝ, (∀ j, 0 < v' j) ∧ f.balanceCols b (.real least) A = Vec.real v' := by
  obtain ⟨t, ht, heq⟩ := b.exists_factors (n := n) least
    (show (MagnitudeRange.ofLines Entry.col f.magnitude A.cols A.entries).size = n by simp [hA])
  exact ⟨v * t, fun j => mul_pos (h.col_pos j) (ht j), by
    rw [Factors.balanceCols, h.cols, heq, Vec.times_real]⟩

/-- A pass keeps the factors positive. -/
theorem Positive.pass (h : f.Positive r v) (hr : A.rows = m) (hc : A.cols = n) (b : Balance)
    (least : ℝ) :
    ∃ (r' : Fin m → ℝ) (v' : Fin n → ℝ), (Factors.pass b (.real least) A f).Positive r' v' := by
  obtain ⟨r', hr', hrows⟩ := h.balanceRows hr b least
  cases b with
  | geometricMean =>
    -- The columns are balanced with the new factors of the rows.
    have h' : Positive { f with rows := f.balanceRows .geometricMean (.real least) A } r' v :=
      ⟨hrows, h.cols, hr', h.col_pos⟩
    obtain ⟨v', hv', hcols⟩ := h'.balanceCols hc .geometricMean least
    exact ⟨r', v', hrows, hcols, hr', hv'⟩
  | largest =>
    obtain ⟨v', hv', hcols⟩ := h.balanceCols hc .largest least
    exact ⟨r', v', hrows, hcols, hr', hv'⟩

theorem Positive.passes (h : f.Positive r v) (hr : A.rows = m) (hc : A.cols = n) (b : Balance)
    (least : ℝ) (count : ℕ) :
    ∃ (r' : Fin m → ℝ) (v' : Fin n → ℝ),
      (Factors.passes b (.real least) A count f).Positive r' v' := by
  induction count with
  | zero => exact ⟨r, v, h⟩
  | succ count ih =>
    obtain ⟨r', v', h'⟩ := ih
    exact h'.pass hr hc b least

theorem positive_unit (hr : A.rows = m) (hc : A.cols = n) :
    (unit A).Positive (1 : Fin m → ℝ) (1 : Fin n → ℝ) :=
  ⟨by rw [unit, hr, Vec.ones_eq], hc ▸ Vec.ones_eq _, fun _ => one_pos, fun _ => one_pos⟩

/-- The factors that balance a matrix are positive real numbers. -/
theorem exists_positive_balancing (hr : A.rows = m) (hc : A.cols = n) (means largests : ℕ)
    (least : ℝ) :
    ∃ (r : Fin m → ℝ) (v : Fin n → ℝ),
      (balancing A means largests (.real least)).Positive r v := by
  obtain ⟨r, v, h⟩ := (positive_unit hr hc).passes hr hc .geometricMean least means
  exact h.passes hr hc .largest least largests

theorem Positive.scaledValue (h : f.Positive r v) {e : Entry Extended} (he : e.Real m n) :
    f.scaledValue e =
      .real (e.value.toReal / (r ⟨e.row, he.row⟩ * v ⟨e.col, he.col⟩)) := by
  have hne : r ⟨e.row, he.row⟩ * v ⟨e.col, he.col⟩ ≠ 0 :=
    (mul_pos (h.row_pos _) (h.col_pos _)).ne'
  rw [Factors.scaledValue, h.rows, h.cols, Vec.getD_real r ⟨e.row, he.row⟩,
    Vec.getD_real v ⟨e.col, he.col⟩, mul_real]
  conv_lhs => rw [eq_real_toReal he.value]
  exact div_real _ hne

end Factors

/-! ### Bounds -/

theorem div_real_one (b : Extended) : b / real 1 = b := by
  cases b with
  | real x => rw [div_real x one_ne_zero, div_one]
  | top => exact if_neg (not_lt.2 zero_le_one)
  | bot => exact if_neg (not_lt.2 zero_le_one)
  | undefined => rfl

/-- Scaling by a positive factor and back leaves a bound as it is, also an infinite one. -/
theorem image_div_cancel {d : ℝ} (hd : 0 < d) (b : Extended) :
    (1 * real d * b + 0 * 0) / real d = b := by
  have hone : (1 : Extended) * real d = real d := congrArg real (one_mul d)
  have hzero : (0 : Extended) * 0 = real 0 := congrArg real (mul_zero 0)
  have hsign : SignType.sign d = 1 := sign_pos hd
  -- An infinite bound stays what it is, both ways.
  rw [hone, hzero]
  cases b with
  | real x => rw [mul_real, add_real, add_zero, div_real _ hd.ne', mul_div_cancel_left₀ _ hd.ne']
  | top =>
    have hmul : real d * top = top := congrArg (fun s => infinite (s * 1)) hsign
    rw [hmul]
    exact if_neg (not_lt.2 hd.le)
  | bot =>
    have hmul : real d * bot = bot := congrArg (fun s => infinite (s * -1)) hsign
    rw [hmul]
    exact if_neg (not_lt.2 hd.le)
  | undefined =>
    have hmul : real d * undefined = undefined := congrArg (fun s => infinite (s * 0)) hsign
    rw [hmul]
    rfl

theorem divide_image {d : Fin n → ℝ} (hd : ∀ j, 0 < d j) (b : Fin n → Extended) :
    Vec.divide (Vec.real d) (Scaled.image (Vec.real d) (Array.ofFn b)) = Array.ofFn b := by
  have hzeros : (Vec.zeros n : Vec Extended) = Array.ofFn fun _ : Fin n => 0 := Vec.zeros_eq n
  rw [Vec.divide, Scaled.image, Vec.addDiagonal, Array.size_ofFn, hzeros, Vec.real,
    Vec.zipWith_ofFn, Vec.zipWith_ofFn, Vec.zipWith_ofFn]
  congr 1
  funext j
  exact image_div_cancel (hd j) (b j)

/-! ### Scaled problems -/

namespace Scaled

variable {p : Problem Extended}

/-- A problem as it is, is its program scaled by ones. -/
theorem scales_identity (hp : p.IsFinite) : (identity p).Scales p.program 1 1 where
  variableFactors := Vec.ones_eq _
  constraintFactors := Vec.ones_eq _
  variable_pos _ := one_pos
  constraint_pos _ := one_pos
  objective := by rw [div_one]; exact hp.objective_eq
  matrix := by
    have hdescale : descale p.program.coeff 1 1 = p.program.coeff := by
      ext i j
      rw [descale, of_apply, Pi.one_apply, Pi.one_apply, mul_one, div_one]
    rw [hdescale]
    exact hp.denotes
  rightSide := by rw [div_one]; exact hp.rightSide_eq
  equalities := rfl
  lower := by
    change Vec.divide (Vec.ones p.cols) p.lower = _
    rw [Problem.lower_eq, Vec.ones_eq, Vec.divide, Vec.real, Vec.zipWith_ofFn]
    congr 1
    funext j
    exact div_real_one _
  upper := by
    change Vec.divide (Vec.ones p.cols) p.upper = _
    rw [Problem.upper_eq, Vec.ones_eq, Vec.divide, Vec.real, Vec.zipWith_ofFn]
    congr 1
    funext j
    exact div_real_one _

/-- A problem with its lines scaled by positive factors is its program scaled by them. -/
theorem scales_ofFactors (hp : p.IsFinite) {f : Factors Extended} {r : Fin p.rows → ℝ}
    {v : Fin p.cols → ℝ} (h : f.Positive r v) (hr : f.rows.size = p.matrix.rows)
    (hc : f.cols.size = p.matrix.cols) : (ofFactors p f hr hc).Scales p.program r v where
  variableFactors := h.cols
  constraintFactors := h.rows
  variable_pos := h.col_pos
  constraint_pos := h.row_pos
  objective := by
    change Vec.divide f.cols p.objective = _
    rw [h.cols, hp.objective_eq, Vec.divide_real fun j => (h.col_pos j).ne']
  matrix := by
    have hdenotes := hp.denotes.reorder .byColumn
    -- Each entry is divided by the factors of its row and its column.
    have hdescale : descale p.program.coeff r v =
        of fun i j => p.program.coeff i j * (of fun i j => (r i * v j)⁻¹) i j := by
      ext i j
      exact div_eq_mul_inv _ _
    rw [hdescale]
    refine hdenotes.mapValues fun e he => ?_
    rw [h.scaledValue (hdenotes.entry he), div_eq_mul_inv]
    rfl
  rightSide := by
    change Vec.divide f.rows p.rightSide = _
    rw [h.rows, hp.rightSide_eq, Vec.divide_real fun i => (h.row_pos i).ne']
  equalities := rfl
  lower := by
    change Vec.divide f.cols (image f.cols p.lower) = _
    rw [h.cols, Problem.lower_eq, divide_image h.col_pos]
  upper := by
    change Vec.divide f.cols (image f.cols p.upper) = _
    rw [h.cols, Problem.upper_eq, divide_image h.col_pos]

/-- A balanced problem is its program, scaled by positive factors. -/
theorem exists_scales_balanced (hp : p.IsFinite) (means largests : ℕ) (least : ℝ) :
    ∃ r v, (balanced p means largests (.real least)).Scales p.program r v := by
  rw [balanced]
  split
  · exact ⟨1, 1, scales_identity hp⟩
  · obtain ⟨r, v, h⟩ := Factors.exists_positive_balancing (A := p.matrix) (m := p.rows)
      (n := p.cols) rfl rfl means largests least
    exact ⟨r, v, scales_ofFactors hp h _ _⟩

end Scaled

/-- The scaled problem of a run is the program of the problem, scaled by positive factors. -/
theorem Params.exists_scales {par : Params Extended} {p : Problem Extended} (hp : p.IsFinite)
    {least : ℝ} (hleast : par.leastFactor = .real least) :
    ∃ r v, (par.scaled p).1.Scales p.program r v := by
  rw [scaled]
  split
  · rw [hleast]
    exact Scaled.exists_scales_balanced hp _ _ least
  · exact ⟨1, 1, Scaled.scales_identity hp⟩

end HybridGradient
