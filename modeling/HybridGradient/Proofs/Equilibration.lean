import HybridGradient.Proofs.CoefficientRange
import Mathlib.Analysis.SpecialFunctions.Pow.Real

/-!
# Passes to the greatest magnitude

A pass of this kind divides each coefficient by two roots, that of the greatest magnitude in its
row and that of the greatest magnitude in its column, both as they were before the pass. In exact
arithmetic no coefficient is left greater than one. From then on the roots are no greater than one
either, so that the greatest magnitude of a line grows at least to its own root, or to a multiple
of itself where the root is too small and was raised.

* `Factors.Positive.left_pass_le_one`: no coefficient is left greater than one;
* `Factors.Positive.exists_largest_pass`: what one pass makes of the greatest magnitude of a line;
* `Scaled.exists_rpow_le_largest`: what any number of passes makes of it;
* `Scaled.equilibrated`: the same for balanced problems.
-/

namespace HybridGradient

open Extended

/-! ### Roots -/

/-- The least magnitude that a pass may leave of the greatest one in a line. -/
theorem min_sqrt_le_div {m least s t : ℝ} (hm : 0 < m) (hs : s = max √m least) (ht : 0 < t)
    (hone : t ≤ 1) : min √m (m / least) ≤ m / (s * t) := by
  have hroot : 0 < √m := Real.sqrt_pos.2 hm
  have hspos : 0 < s := hs ▸ lt_max_of_lt_left hroot
  have hle : min √m (m / least) ≤ m / s := by
    rcases max_choice √m least with hmax | hmax
    · rw [hs, hmax, Real.div_sqrt]
      exact min_le_left _ _
    · rw [hs, hmax]
      exact min_le_right _ _
  refine hle.trans (div_le_div_of_nonneg_left hm.le (mul_pos hspos ht) ?_)
  exact mul_le_of_le_one_right hspos.le hone

/-- It is no less than the magnitude was before. -/
theorem le_min_sqrt {m least : ℝ} (hm : 0 < m) (hone : m ≤ 1) (hleast : 0 < least)
    (hle : least ≤ 1) : m ≤ min √m (m / least) := by
  refine le_min (Real.le_sqrt_of_sq_le ?_) ((le_div_iff₀ hleast).2 ?_)
  · rw [sq]
    exact mul_le_of_le_one_right hm.le hone
  · exact mul_le_of_le_one_right hm.le hle

/-- A root that need not be raised. -/
theorem min_sqrt_eq {m least : ℝ} (hleast : 0 < least) (h : least ^ 2 ≤ m) :
    min √m (m / least) = √m := by
  have hroot : least ≤ √m := Real.le_sqrt_of_sq_le h
  have hm : 0 ≤ m := (sq_nonneg least).trans h
  refine min_eq_left ((le_div_iff₀ hleast).2 ?_)
  calc √m * least ≤ √m * √m := mul_le_mul_of_nonneg_left hroot (Real.sqrt_nonneg m)
    _ = m := Real.mul_self_sqrt hm

namespace Factors

variable {A : SparseMatrix Extended} {f : Factors Extended} {r : Fin A.rows → ℝ}
  {v : Fin A.cols → ℝ} {e : Entry Extended} {least : ℝ} {line : Entry Extended → ℕ}
  (hA : ∀ e ∈ A.entries, Scalar.isFinite e.value = true)

include hA

/-! ### A pass -/

/-- The factor of a line is no less than the root of what is left of a coefficient in it. -/
theorem Positive.sqrt_left_le (h : f.Positive r v) (least : ℝ) (line : Entry Extended → ℕ)
    (he : A.Nonzero e) :
    √(f.left e) ≤ (f.lineFactor .largest (real least) line A (line e)).toReal := by
  obtain ⟨lo, hi, -, hhi, heq⟩ := h.exists_lineFactor hA .largest least line he
  rw [heq, toReal_real]
  exact (Real.sqrt_le_sqrt (hhi.2 ⟨e, he, rfl, rfl⟩)).trans (le_max_left _ _)

/-- A pass leaves no coefficient greater than one. -/
theorem Positive.left_pass_le_one (h : f.Positive r v) (least : ℝ) (he : A.Nonzero e) :
    (Factors.pass .largest (real least) A f).left e ≤ 1 := by
  have hpos (line : Entry Extended → ℕ) (i : ℕ) := (lineFactor_real f .largest least line A i).2
  rw [h.left_largests hA least he, div_le_one (mul_pos (hpos _ _) (hpos _ _))]
  calc f.left e = √(f.left e) * √(f.left e) := (Real.mul_self_sqrt (h.left_pos hA he).le).symm
    _ ≤ _ := mul_le_mul (h.sqrt_left_le hA least Entry.row he)
        (h.sqrt_left_le hA least Entry.col he) (Real.sqrt_nonneg _) (hpos _ _).le

/-- Where no coefficient is greater than one, the factor of a line is neither. -/
theorem Positive.lineFactor_le_one (h : f.Positive r v) (hone : ∀ e, A.Nonzero e → f.left e ≤ 1)
    (hleast : least ≤ 1) (line : Entry Extended → ℕ) (he : A.Nonzero e) :
    (f.lineFactor .largest (real least) line A (line e)).toReal ≤ 1 := by
  obtain ⟨lo, hi, -, hhi, heq⟩ := h.exists_lineFactor hA .largest least line he
  obtain ⟨g, hg, -, rfl⟩ := hhi.1
  rw [heq, toReal_real]
  exact max_le (Real.sqrt_le_one.2 (hone g hg)) hleast

/-- The factor of a line with a known greatest magnitude. -/
theorem Positive.lineFactor_eq_max (h : f.Positive r v) (least : ℝ)
    (line : Entry Extended → ℕ) (he : A.Nonzero e)
    (hm : IsGreatest (f.leftIn A line (line e)) (f.left e)) :
    (f.lineFactor .largest (real least) line A (line e)).toReal = max √(f.left e) least := by
  obtain ⟨lo, hi, -, hhi, heq⟩ := h.exists_lineFactor hA .largest least line he
  rw [heq, toReal_real, hhi.unique hm]
  rfl

/-- What a pass leaves of the greatest magnitude in a row or in a column. -/
theorem Positive.min_sqrt_le_left_pass (h : f.Positive r v)
    (hone : ∀ e, A.Nonzero e → f.left e ≤ 1) (hleast : least ≤ 1)
    (hline : line = Entry.row ∨ line = Entry.col) (he : A.Nonzero e)
    (hm : IsGreatest (f.leftIn A line (line e)) (f.left e)) :
    min √(f.left e) (f.left e / least) ≤ (Factors.pass .largest (real least) A f).left e := by
  have hfactor (line : Entry Extended → ℕ) (i : ℕ) := (lineFactor_real f .largest least line A i).2
  rw [h.left_largests hA least he]
  -- One of the two factors is known, and the other one is not greater than one.
  rcases hline with rfl | rfl
  · exact min_sqrt_le_div (h.left_pos hA he) (h.lineFactor_eq_max hA least _ he hm)
      (hfactor _ _) (h.lineFactor_le_one hA hone hleast _ he)
  · rw [mul_comm]
    exact min_sqrt_le_div (h.left_pos hA he) (h.lineFactor_eq_max hA least _ he hm)
      (hfactor _ _) (h.lineFactor_le_one hA hone hleast _ he)

/-- The greatest magnitude of a row or a column after one more pass. -/
theorem Positive.exists_largest_pass (h : f.Positive r v)
    (hone : ∀ e, A.Nonzero e → f.left e ≤ 1) (hleast : least ≤ 1)
    (hline : line = Entry.row ∨ line = Entry.col) {i : ℕ} {m : ℝ}
    (hm : IsGreatest (f.leftIn A line i) m) :
    ∃ m', IsGreatest ((Factors.pass .largest (real least) A f).leftIn A line i) m' ∧
      min √m (m / least) ≤ m' ∧ m' ≤ 1 := by
  obtain ⟨e, he, rfl, rfl⟩ := hm.1
  obtain ⟨r', v', h'⟩ := h.pass (A := A) rfl rfl .largest least
  obtain ⟨lo, hi, -, -, hhi⟩ := h'.exists_range hA line he
  refine ⟨hi, hhi, ?_, ?_⟩
  · exact (h.min_sqrt_le_left_pass hA hone hleast hline he hm).trans
      (hhi.2 ⟨e, he, rfl, rfl⟩)
  · obtain ⟨g, hg, -, rfl⟩ := hhi.1
    exact h.left_pass_le_one hA least hg

end Factors

/-! ### Balanced problems -/

namespace Scaled

variable {p : Problem Extended} (hp : ∀ e ∈ p.matrix.entries, Scalar.isFinite e.value = true)
  {means largests : ℕ} {least : ℝ} {line : Entry Extended → ℕ}

include hp

/-- After a pass to the greatest magnitude, no coefficient is left greater than one. -/
theorem left_balancing_le_one (hlargests : 0 < largests) {e : Entry Extended}
    (he : p.matrix.Nonzero e) :
    (Factors.balancing p.matrix means largests (.real least)).left e ≤ 1 := by
  obtain ⟨k, rfl⟩ := Nat.exists_eq_add_one.2 hlargests
  obtain ⟨r, v, h⟩ := Factors.exists_positive_balancing (A := p.matrix) rfl rfl means k least
  exact h.left_pass_le_one hp least he

/-- The entries of a balanced matrix are numbers between minus one and one. -/
theorem abs_entry_le_one (hlargests : 0 < largests) {e : Entry Extended}
    (he : e ∈ (balanced p means largests (.real least)).problem.matrix.entries) :
    ∃ a, e.value = .real a ∧ |a| ≤ 1 := by
  rw [balanced, if_neg fun hzero => hlargests.ne' hzero.2] at he
  obtain ⟨g, hg, rfl⟩ := List.mem_map.1 he
  have hg := (p.matrix.reorder_perm .byColumn).mem_iff.1 hg
  have hreal := Factors.entry_real hp hg
  obtain ⟨r, v, h⟩ := Factors.exists_positive_balancing (A := p.matrix) rfl rfl means largests least
  refine ⟨_, h.scaledValue hreal, ?_⟩
  by_cases hzero : g.value = 0
  · rw [hzero, zero_eq, toReal_real, zero_div, abs_zero]
    exact zero_le_one
  · have hle : (Factors.balancing p.matrix means largests (.real least)).left g ≤ 1 :=
      left_balancing_le_one hp hlargests ⟨hg, hzero⟩
    rwa [Factors.left, h.magnitude hreal, toReal_real] at hle

/-- The magnitudes of a row or of a column are what the factors leave there. -/
theorem line_balanced (hline : line = Entry.row ∨ line = Entry.col) (largests : ℕ) (i : ℕ) :
    (balanced p means largests (.real least)).problem.matrix.magnitudesIn line i =
      (Factors.balancing p.matrix means largests (.real least)).leftIn p.matrix line i := by
  rcases hline with rfl | rfl
  · exact magnitudesIn_balanced hp means largests least (fun _ _ => rfl) i
  · exact magnitudesIn_balanced hp means largests least (fun _ _ => rfl) i

/-- One more pass, where there was one already. -/
theorem exists_largest_succ (hlargests : 0 < largests) (hone : least ≤ 1)
    (hline : line = Entry.row ∨ line = Entry.col) {i : ℕ} {m : ℝ}
    (hm : IsGreatest ((balanced p means largests (.real least)).problem.matrix.magnitudesIn line i)
      m) :
    0 < m ∧ m ≤ 1 ∧ ∃ m', IsGreatest
        ((balanced p means (largests + 1) (.real least)).problem.matrix.magnitudesIn line i) m' ∧
      min √m (m / least) ≤ m' ∧ m' ≤ 1 := by
  rw [line_balanced hp hline] at hm ⊢
  obtain ⟨r, v, h⟩ := Factors.exists_positive_balancing (A := p.matrix) rfl rfl means largests least
  refine ⟨h.pos_of_mem_leftIn hp hm.1, ?_, ?_⟩
  · obtain ⟨e, he, -, rfl⟩ := hm.1
    exact left_balancing_le_one hp hlargests he
  · exact h.exists_largest_pass hp (fun e he => left_balancing_le_one hp hlargests he) hone hline hm

/-- Once the root of a greatest magnitude need not be raised, each further pass leaves at least
    the root of what the last one left. -/
theorem exists_rpow_le_largest (hlargests : 0 < largests) (hpos : 0 < least) (hone : least ≤ 1)
    (hline : line = Entry.row ∨ line = Entry.col) {i : ℕ} {m : ℝ}
    (hm : IsGreatest ((balanced p means largests (.real least)).problem.matrix.magnitudesIn line i)
      m) (hle : least ^ 2 ≤ m) (k : ℕ) :
    ∃ m', IsGreatest
        ((balanced p means (largests + k) (.real least)).problem.matrix.magnitudesIn line i) m' ∧
      m ^ ((1 / 2 : ℝ) ^ k) ≤ m' ∧ m' ≤ 1 := by
  obtain ⟨hm0, hm1, -⟩ := exists_largest_succ hp hlargests hone hline hm
  induction k with
  | zero => exact ⟨m, hm, by rw [pow_zero, Real.rpow_one], hm1⟩
  | succ k ih =>
    obtain ⟨a, ha, hma, -⟩ := ih
    -- The power has not fallen below `m`, and so not below the square of the least factor.
    have hpow : m ≤ m ^ ((1 / 2 : ℝ) ^ k) := by
      have hexponent : (1 / 2 : ℝ) ^ k ≤ 1 := pow_le_one₀ (by norm_num) (by norm_num)
      simpa using Real.rpow_le_rpow_of_exponent_ge hm0 hm1 hexponent
    obtain ⟨-, -, b, hb, hab, hb1⟩ := exists_largest_succ hp (Nat.add_pos_left hlargests k) hone
      hline ha
    rw [min_sqrt_eq hpos (hle.trans (hpow.trans hma))] at hab
    refine ⟨b, hb, ?_, hb1⟩
    calc m ^ ((1 / 2 : ℝ) ^ (k + 1)) = √(m ^ ((1 / 2 : ℝ) ^ k)) := by
          rw [pow_succ, Real.rpow_mul hm0.le, Real.sqrt_eq_rpow]
      _ ≤ √a := Real.sqrt_le_sqrt hma
      _ ≤ b := hab

/-- In exact arithmetic, with at least one pass to the greatest magnitude and a least factor
    allowed that is positive and no greater than one, the entries of a balanced matrix lie between
    minus one and one.

    If the coefficients of a row or of a column have the greatest magnitude `m`, then one more
    pass leaves them a greatest magnitude between `m` and one, and also between the root of `m`, or
    `m` over the least factor if that is smaller, and one. Where `m` is no less than the square of
    the least factor, any number of further passes leaves at least the root of `m` taken as many
    times. -/
theorem equilibrated (hlargests : 0 < largests) (hpos : 0 < least) (hone : least ≤ 1)
    (means : ℕ) :
    (∀ e ∈ (balanced p means largests (.real least)).problem.matrix.entries,
      ∃ a, e.value = .real a ∧ |a| ≤ 1) ∧
    ∀ line : Entry Extended → ℕ, line = Entry.row ∨ line = Entry.col → ∀ (i : ℕ) (m : ℝ),
      IsGreatest ((balanced p means largests (.real least)).problem.matrix.magnitudesIn line i) m →
      (∃ m', IsGreatest
          ((balanced p means (largests + 1) (.real least)).problem.matrix.magnitudesIn line i) m' ∧
        min √m (m / least) ≤ m' ∧ m ≤ m' ∧ m' ≤ 1) ∧
      (least ^ 2 ≤ m → ∀ k, ∃ m', IsGreatest
          ((balanced p means (largests + k) (.real least)).problem.matrix.magnitudesIn line i) m' ∧
        m ^ ((1 / 2 : ℝ) ^ k) ≤ m' ∧ m' ≤ 1) := by
  refine ⟨fun e he => abs_entry_le_one hp hlargests he, fun line hline i m hm => ⟨?_, ?_⟩⟩
  · obtain ⟨hm0, hm1, m', hm', hmin, hle⟩ := exists_largest_succ hp hlargests hone hline hm
    exact ⟨m', hm', hmin, (le_min_sqrt hm0 hm1 hpos hone).trans hmin, hle⟩
  · exact fun hle k => exists_rpow_le_largest hp hlargests hpos hone hline hm hle k

omit hp in
/-- The first row of the small problem, with the coefficients four and one, after four passes and
    after five. -/
theorem equilibrated_blend :
    ∃ m m', IsGreatest ((balanced .blend 10 4
          (.real (1 / 2))).problem.matrix.magnitudesIn Entry.row 0) m ∧
      IsGreatest ((balanced .blend 10 5
          (.real (1 / 2))).problem.matrix.magnitudesIn Entry.row 0) m' ∧
      min √m (m / (1 / 2)) ≤ m' ∧ m ≤ m' ∧ m' ≤ 1 := by
  obtain ⟨r, v, h⟩ := Factors.exists_positive_balancing (A := Problem.blend.matrix) rfl rfl 10 4
    (1 / 2)
  obtain ⟨lo, m, -, -, hm⟩ :=
    h.exists_range Problem.isFinite_blend.matrix Entry.row Problem.nonzero_blend
  rw [← line_balanced Problem.isFinite_blend.matrix (.inl rfl)] at hm
  obtain ⟨m', hm', hle⟩ := ((equilibrated Problem.isFinite_blend.matrix (by norm_num)
    (by norm_num) (by norm_num) 10).2 Entry.row (.inl rfl) 0 m hm).1
  exact ⟨m, m', hm, hm', hle⟩

end Scaled

end HybridGradient
