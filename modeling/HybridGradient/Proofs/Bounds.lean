import HybridGradient.Proofs.Program

/-!
# Bounds

A problem is accepted if no interval between the bounds of a variable is empty. In exact
arithmetic this leaves a real number between them, unless both bounds are the same infinity,
and clamping is the projection onto the real numbers between the bounds.

* `Problem.Accepted`, `Problem.accepted_iff`: the problems whose data are accepted;
* `Extended.Between`: the real numbers between two bounds;
* `Extended.nearest`: the one that a number is clamped to, with its characterisation by an
  inequality (`nearest_variational`, `nearest_eq`);
* `Extended.Stationary`: a number between its bounds that a cost does not move.
-/

namespace HybridGradient

/-! ### Accepted problems -/

namespace Problem

variable {α : Type} [Scalar α] {p : Problem α}

/-- A problem whose data are accepted. -/
def Accepted (p : Problem α) : Prop :=
  ofData? p.objective p.matrix p.rightSide p.equalities p.lower p.upper = .ok p

theorem emptyBounds?_eq_none_iff {l u : Vec α} :
    emptyBounds? l u = none ↔ ∀ b ∈ Array.zip l u, b.1 ≤ b.2 := by
  simp [emptyBounds?, Array.findIdx?_eq_none_iff]

theorem accepted_iff_emptyBounds? : p.Accepted ↔ emptyBounds? p.lower p.upper = none := by
  rw [Accepted, ofData?, dif_pos ⟨p.size_objective, p.size_rightSide, p.size_lower, p.size_upper⟩,
    dif_pos p.equalities_le]
  cases h : emptyBounds? p.lower p.upper with
  | none => exact iff_of_true rfl rfl
  | some j => exact iff_of_false nofun nofun

/-- Accepted are the problems that have a lower bound below the upper one everywhere. -/
theorem accepted_iff : p.Accepted ↔ ∀ j : Fin p.cols,
    p.lower[j.cast p.size_lower.symm] ≤ p.upper[j.cast p.size_upper.symm] := by
  rw [accepted_iff_emptyBounds?, emptyBounds?_eq_none_iff]
  constructor
  · intro h j
    have hj : (j : ℕ) < (Array.zip p.lower p.upper).size := by
      rw [Array.size_zip, p.size_lower, p.size_upper, Nat.min_self]
      exact j.isLt
    have hle := h _ (Array.getElem_mem hj)
    rwa [Array.getElem_zip] at hle
  · intro h b hb
    obtain ⟨j, hj, rfl⟩ := Array.mem_iff_getElem.1 hb
    rw [Array.size_zip, p.size_lower, p.size_upper, Nat.min_self] at hj
    rw [Array.getElem_zip]
    exact h ⟨j, hj⟩

variable {objective rightSide lower upper : Vec α} {matrix : SparseMatrix α} {equalities : ℕ}

/-- A problem is made of the data that it is given. -/
theorem data_of_ofData?
    (h : ofData? objective matrix rightSide equalities lower upper = .ok p) :
    p.objective = objective ∧ p.matrix = matrix ∧ p.rightSide = rightSide ∧
      p.equalities = equalities ∧ p.lower = lower ∧ p.upper = upper := by
  rw [ofData?] at h
  split at h
  · split at h
    · split at h
      · cases h
      · obtain rfl := Except.ok.inj h
        exact ⟨rfl, rfl, rfl, rfl, rfl, rfl⟩
    · cases h
  · cases h

/-- What comes of data that are accepted is an accepted problem. -/
theorem accepted_of_ofData?
    (h : ofData? objective matrix rightSide equalities lower upper = .ok p) : p.Accepted := by
  obtain ⟨rfl, rfl, rfl, rfl, rfl, rfl⟩ := data_of_ofData? h
  exact h

end Problem

/-! ### Intervals of real numbers -/

namespace Extended

theorem le_trans_real {l u : Extended} {t : ℝ} (hl : l ≤ real t) (hu : real t ≤ u) : l ≤ u := by
  cases l with
  | real l =>
    cases u with
    | real u => exact real_le_real.2 ((real_le_real.1 hl).trans (real_le_real.1 hu))
    | top => exact real_le_top l
    | bot => exact absurd hu (not_real_le_bot t)
    | undefined => exact absurd hu (not_le_undefined _)
  | bot =>
    cases u with
    | real u => exact bot_le_real u
    | top => exact .inl trivial
    | bot => exact absurd hu (not_real_le_bot t)
    | undefined => exact absurd hu (not_le_undefined _)
  | top => exact absurd hl (not_top_le_real t)
  | undefined => exact absurd hl (not_undefined_le _)

/-- A real number is between two bounds. -/
def Between (l u : Extended) (t : ℝ) : Prop := l ≤ real t ∧ real t ≤ u

/-- Between ordered bounds there is a real number, unless both are the same infinity. -/
theorem exists_between {l u : Extended} (h : l ≤ u) (hl : l ≠ top) (hu : u ≠ bot) :
    ∃ t, Between l u t := by
  cases l with
  | real l => exact ⟨l, real_le_real.2 le_rfl, h⟩
  | top => exact absurd rfl hl
  | undefined => exact absurd h (not_undefined_le u)
  | bot =>
    cases u with
    | real u => exact ⟨u, bot_le_real u, real_le_real.2 le_rfl⟩
    | top => exact ⟨0, bot_le_real 0, real_le_top 0⟩
    | bot => exact absurd rfl hu
    | undefined => exact absurd h (not_le_undefined bot)

/-- What is not below a lower bound is above it. -/
theorem le_of_not_lt {l : Extended} {s t : ℝ} (hl : l ≤ real s) (h : ¬ real t < l) :
    l ≤ real t := by
  cases l with
  | real l => exact real_le_real.2 (not_lt.1 h)
  | bot => exact bot_le_real t
  | top => exact absurd hl (not_top_le_real s)
  | undefined => exact absurd hl (not_undefined_le _)

/-- What is not above an upper bound is below it. -/
theorem le_of_not_gt {u : Extended} {s t : ℝ} (hu : real s ≤ u) (h : ¬ u < real t) :
    real t ≤ u := by
  cases u with
  | real u => exact real_le_real.2 (not_lt.1 h)
  | top => exact real_le_top t
  | bot => exact absurd hu (not_real_le_bot s)
  | undefined => exact absurd hu (not_le_undefined _)

/-- Where there is a real number between two bounds, a real number is clamped to one between
    them. From there, no number between the bounds is on the side of the given one. -/
theorem exists_clamp_real {l u : Extended} (h : ∃ s, Between l u s) (t : ℝ) :
    ∃ c, Scalar.clamp l u (real t) = real c ∧ Between l u c ∧
      ∀ s, Between l u s → (t - c) * (s - c) ≤ 0 := by
  obtain ⟨s₀, hl, hu⟩ := h
  rw [Scalar.clamp]
  by_cases hlt : real t < l
  · -- The number is below the lower bound, which is real.
    rw [if_pos hlt]
    cases l with
    | real l =>
      refine ⟨l, rfl, ⟨real_le_real.2 le_rfl, le_trans_real hl hu⟩, fun s hs => ?_⟩
      exact mul_nonpos_of_nonpos_of_nonneg (sub_nonpos.2 (real_lt_real.1 hlt).le)
        (sub_nonneg.2 (real_le_real.1 hs.1))
    | top => exact absurd hl (not_top_le_real s₀)
    | bot | undefined => exact absurd hlt id
  · rw [if_neg hlt]
    by_cases hgt : u < real t
    · -- The number is above the upper bound, which is real.
      rw [if_pos hgt]
      cases u with
      | real u =>
        refine ⟨u, rfl, ⟨le_trans_real hl hu, real_le_real.2 le_rfl⟩, fun s hs => ?_⟩
        exact mul_nonpos_of_nonneg_of_nonpos (sub_nonneg.2 (real_lt_real.1 hgt).le)
          (sub_nonpos.2 (real_le_real.1 hs.2))
      | bot => exact absurd hu (not_real_le_bot s₀)
      | top | undefined => exact absurd hgt id
    · rw [if_neg hgt]
      exact ⟨t, rfl, ⟨le_of_not_lt hl hlt, le_of_not_gt hu hgt⟩, fun s _ => by
        rw [sub_self, zero_mul]⟩

/-- The real number between two bounds that a real number is clamped to. -/
noncomputable def nearest (l u : Extended) (t : ℝ) : ℝ := (Scalar.clamp l u (real t)).toReal

section

variable {l u : Extended} (h : ∃ s, Between l u s)

include h

theorem clamp_real (t : ℝ) : Scalar.clamp l u (real t) = real (nearest l u t) := by
  obtain ⟨c, hc, -⟩ := exists_clamp_real h t
  rw [nearest, hc, toReal_real]

theorem between_nearest (t : ℝ) : Between l u (nearest l u t) := by
  obtain ⟨c, hc, hbetween, -⟩ := exists_clamp_real h t
  rwa [nearest, hc]

omit h in
/-- No number between the bounds is on the side of the given one. -/
theorem nearest_variational {s : ℝ} (hs : Between l u s) (t : ℝ) :
    (t - nearest l u t) * (s - nearest l u t) ≤ 0 := by
  obtain ⟨c, hc, -, hvar⟩ := exists_clamp_real ⟨s, hs⟩ t
  rw [nearest, hc]
  exact hvar s hs

omit h in
/-- This inequality determines the nearest number. -/
theorem nearest_eq {t c : ℝ} (hc : Between l u c)
    (hvar : ∀ s, Between l u s → (t - c) * (s - c) ≤ 0) : nearest l u t = c := by
  have h₁ := nearest_variational hc t
  have h₂ := hvar _ (between_nearest ⟨c, hc⟩ t)
  have hsq : (nearest l u t - c) * (nearest l u t - c) ≤ 0 := by linarith
  exact sub_eq_zero.1 (mul_self_eq_zero.1 (le_antisymm hsq (mul_self_nonneg _)))

/-- The nearest numbers of two numbers are apart by no more than these, and in the direction
    in which these are. -/
theorem mul_nearest_sub_nonneg (t t' : ℝ) :
    0 ≤ (t - t' - (nearest l u t - nearest l u t')) * (nearest l u t - nearest l u t') := by
  have h₁ := nearest_variational (between_nearest h t') t
  have h₂ := nearest_variational (between_nearest h t) t'
  linarith

/-- Clamping brings no two numbers further apart. -/
theorem abs_nearest_sub_le (t t' : ℝ) : |nearest l u t - nearest l u t'| ≤ |t - t'| := by
  have hsq : (nearest l u t - nearest l u t') * (nearest l u t - nearest l u t') ≤
      (t - t') * (nearest l u t - nearest l u t') := by
    have hnonneg := mul_nearest_sub_nonneg h t t'
    rwa [sub_mul, sub_nonneg] at hnonneg
  rcases eq_or_ne (nearest l u t - nearest l u t') 0 with hzero | hne
  · rw [hzero, abs_zero]
    exact abs_nonneg _
  · have hle := (le_abs_self _).trans' hsq
    rw [← abs_mul_abs_self, abs_mul] at hle
    exact le_of_mul_le_mul_right hle (abs_pos.2 hne)

end

/-! ### Stationary numbers -/

/-- A number between its bounds is at the lower one if it costs, and at the upper one if
    it pays. -/
structure Stationary (l u : Extended) (x r : ℝ) : Prop where
  between : Between l u x
  eq_lower : 0 < r → l = real x
  eq_upper : r < 0 → u = real x

/-- A lower bound below which nothing is between the bounds is attained. -/
theorem Between.eq_lower {l u : Extended} {x : ℝ} (hx : Between l u x)
    (h : ∀ s, Between l u s → x ≤ s) : l = real x := by
  obtain ⟨hl, hu⟩ := hx
  cases l with
  | real l =>
    have hle := h l ⟨real_le_real.2 le_rfl, le_trans_real hl hu⟩
    rw [le_antisymm (real_le_real.1 hl) hle]
  | bot =>
    -- One less would be between the bounds as well.
    have hle := h (x - 1) ⟨bot_le_real _, le_trans_real (real_le_real.2 (by linarith)) hu⟩
    linarith
  | top => exact absurd hl (not_top_le_real x)
  | undefined => exact absurd hl (not_undefined_le _)

/-- An upper bound above which nothing is between the bounds is attained. -/
theorem Between.eq_upper {l u : Extended} {x : ℝ} (hx : Between l u x)
    (h : ∀ s, Between l u s → s ≤ x) : u = real x := by
  obtain ⟨hl, hu⟩ := hx
  cases u with
  | real u =>
    have hle := h u ⟨le_trans_real hl hu, real_le_real.2 le_rfl⟩
    rw [le_antisymm hle (real_le_real.1 hu)]
  | top =>
    have hle := h (x + 1) ⟨le_trans_real hl (real_le_real.2 (by linarith)), real_le_top _⟩
    linarith
  | bot => exact absurd hu (not_real_le_bot x)
  | undefined => exact absurd hu (not_le_undefined _)

/-- Exactly a stationary number is left where it is by a move against its cost that is
    followed by clamping. -/
theorem nearest_sub_eq_iff {l u : Extended} (h : ∃ s, Between l u s) {t : ℝ} (ht : 0 < t)
    (x r : ℝ) : nearest l u (x - t * r) = x ↔ Stationary l u x r := by
  constructor
  · intro heq
    have hx : Between l u x := heq ▸ between_nearest h _
    have hvar (s : ℝ) (hs : Between l u s) : 0 ≤ t * (r * (s - x)) := by
      have hle := nearest_variational hs (x - t * r)
      rw [heq] at hle
      linarith
    refine ⟨hx, fun hr => hx.eq_lower fun s hs => ?_, fun hr => hx.eq_upper fun s hs => ?_⟩
    · have hmul := nonneg_of_mul_nonneg_right (hvar s hs) ht
      exact sub_nonneg.1 (nonneg_of_mul_nonneg_right hmul hr)
    · have hmul := nonneg_of_mul_nonneg_right (hvar s hs) ht
      exact sub_nonpos.1 (nonpos_of_mul_nonneg_right hmul hr)
  · rintro ⟨hx, hlower, hupper⟩
    refine nearest_eq hx fun s hs => ?_
    have hcost : 0 ≤ r * (s - x) := by
      rcases lt_trichotomy r 0 with hr | rfl | hr
      · have hle := hs.2
        rw [hupper hr, real_le_real] at hle
        exact mul_nonneg_of_nonpos_of_nonpos hr.le (sub_nonpos.2 hle)
      · rw [zero_mul]
      · have hle := hs.1
        rw [hlower hr, real_le_real] at hle
        exact mul_nonneg hr.le (sub_nonneg.2 hle)
    linarith [mul_nonneg ht.le hcost]

end Extended

end HybridGradient
