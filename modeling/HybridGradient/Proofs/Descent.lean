import HybridGradient.Proofs.Solutions
import Mathlib.Analysis.CStarAlgebra.Matrix

/-!
# The metric of the step

The step mixes the point and the multipliers, and brings no two iterates closer in the
euclidean metric. It does so in a metric of its own, the energy, in which a displacement of
the point and one of the multipliers are not orthogonal. There the step is firmly
nonexpansive: what two iterates come closer by is no less than the energy of the difference
of their displacements. As long as the step size is less than the reciprocal of the norm of
the matrix, the energy is a metric indeed, and a run descends to each solution.

* `energy`, `le_energy`: the quadratic form and its bound from below;
* `Program.energy_step_le`: the step is firmly nonexpansive;
* `Program.energy_iterate_antitone`, `Program.sum_energy_add_le`: the descent of a run;
* `Problem.step_firmly_nonexpansive`: both for the step of a problem and its runs.
-/

namespace HybridGradient

open Extended Matrix

open scoped Matrix.Norms.L2Operator

variable {m n : ℕ}

/-! ### The energy -/

/-- The energy of a displacement, for a matrix and a step size. -/
def energy (M : Matrix (Fin m) (Fin n) ℝ) (t : ℝ) (d : Point m n) : ℝ :=
  d.1 ⬝ᵥ d.1 + 2 * t * ((M *ᵥ d.1) ⬝ᵥ d.2) + d.2 ⬝ᵥ d.2

theorem length_eq_norm (x : Fin n → ℝ) : length x = ‖WithLp.toLp 2 x‖ := by
  rw [length, EuclideanSpace.norm_eq, dotProduct]
  simp only [Real.norm_eq_abs, sq, abs_mul_abs_self]

/-- The norm of a matrix bounds the growth of a vector. -/
theorem length_mulVec_le (M : Matrix (Fin m) (Fin n) ℝ) (x : Fin n → ℝ) :
    length (M *ᵥ x) ≤ ‖M‖ * length x := by
  rw [length_eq_norm, length_eq_norm]
  exact l2_opNorm_mulVec M (WithLp.toLp 2 x)

/-- The square of the norm is no more than the sum of the squares of all coefficients. -/
theorem norm_sq_le_sum (M : Matrix (Fin m) (Fin n) ℝ) : ‖M‖ ^ 2 ≤ ∑ i, M i ⬝ᵥ M i := by
  have hsum : 0 ≤ ∑ i, M i ⬝ᵥ M i := Finset.sum_nonneg fun i _ => dotProduct_self_nonneg (M i)
  refine (Real.le_sqrt (norm_nonneg M) hsum).1 ?_
  rw [l2_opNorm_def]
  refine ContinuousLinearMap.opNorm_le_bound _ (Real.sqrt_nonneg _) fun x => ?_
  change ‖WithLp.toLp 2 (M *ᵥ x.ofLp)‖ ≤ _ * ‖WithLp.toLp 2 x.ofLp‖
  rw [← length_eq_norm, ← length_eq_norm, length, length, ← Real.sqrt_mul hsum]
  refine Real.sqrt_le_sqrt ?_
  rw [dotProduct, Finset.sum_mul]
  refine Finset.sum_le_sum fun i _ => ?_
  have hrow : |M i ⬝ᵥ x.ofLp| ≤ length (M i) * length x.ofLp := by
    refine abs_le'.2 ⟨dotProduct_le_length _ _, ?_⟩
    rw [← neg_dotProduct, ← length_neg (M i)]
    exact dotProduct_le_length _ _
  calc (M *ᵥ x.ofLp) i * (M *ᵥ x.ofLp) i = |M i ⬝ᵥ x.ofLp| * |M i ⬝ᵥ x.ofLp| :=
        (abs_mul_abs_self _).symm
    _ ≤ length (M i) * length x.ofLp * (length (M i) * length x.ofLp) :=
        mul_self_le_mul_self (abs_nonneg _) hrow
    _ = M i ⬝ᵥ M i * (x.ofLp ⬝ᵥ x.ofLp) := by
        rw [mul_mul_mul_comm, length_mul_self, length_mul_self]

/-- The energy is no less than a multiple of the square of the euclidean length. -/
theorem le_energy (M : Matrix (Fin m) (Fin n) ℝ) {t : ℝ} (ht : 0 ≤ t) (d : Point m n) :
    (1 - t * ‖M‖) * (d.1 ⬝ᵥ d.1 + d.2 ⬝ᵥ d.2) ≤ energy M t d := by
  have hmixed : -((M *ᵥ d.1) ⬝ᵥ d.2) ≤ ‖M‖ * (length d.1 * length d.2) := by
    rw [← neg_dotProduct, ← mulVec_neg]
    calc (M *ᵥ (-d.1)) ⬝ᵥ d.2 ≤ length (M *ᵥ (-d.1)) * length d.2 := dotProduct_le_length _ _
      _ ≤ ‖M‖ * length (-d.1) * length d.2 :=
          mul_le_mul_of_nonneg_right (length_mulVec_le M _) (length_nonneg _)
      _ = ‖M‖ * (length d.1 * length d.2) := by rw [length_neg, mul_assoc]
  have hmean : 2 * (length d.1 * length d.2) ≤ d.1 ⬝ᵥ d.1 + d.2 ⬝ᵥ d.2 := by
    rw [← length_mul_self d.1, ← length_mul_self d.2]
    linarith [two_mul_le_add_sq (length d.1) (length d.2)]
  have hgrowth := mul_le_mul_of_nonneg_left hmixed ht
  have hbound := mul_le_mul_of_nonneg_left hmean (mul_nonneg ht (norm_nonneg M))
  rw [energy]
  linarith

/-- A step size is small enough if its product with the norm is less than one. -/
theorem mul_norm_lt_one {M : Matrix (Fin m) (Fin n) ℝ} {t : ℝ} (ht : 0 ≤ t)
    (h : t ^ 2 * ‖M‖ ^ 2 < 1) : t * ‖M‖ < 1 := by
  rw [← mul_pow] at h
  exact (sq_lt_one_iff₀ (mul_nonneg ht (norm_nonneg M))).1 h

theorem energy_nonneg {M : Matrix (Fin m) (Fin n) ℝ} {t : ℝ} (ht : 0 ≤ t) (h : t * ‖M‖ ≤ 1)
    (d : Point m n) : 0 ≤ energy M t d :=
  le_trans (mul_nonneg (sub_nonneg.2 h)
    (add_nonneg (dotProduct_self_nonneg _) (dotProduct_self_nonneg _))) (le_energy M ht d)

theorem energy_neg (M : Matrix (Fin m) (Fin n) ℝ) (t : ℝ) (d : Point m n) :
    energy M t (-d) = energy M t d := by
  simp [energy, mulVec_neg]

/-- What a displacement loses of its energy when it is split in two, in terms of the moves
    that are projected. -/
theorem energy_sub_energy (M : Matrix (Fin m) (Fin n) ℝ) (t : ℝ) (d e : Point m n) :
    energy M t d - (energy M t e + energy M t (d - e)) =
      2 * ((d.1 + t • (Mᵀ *ᵥ d.2) - e.1) ⬝ᵥ e.1 +
        (d.2 - t • (M *ᵥ ((2 : ℝ) • e.1 - d.1)) - e.2) ⬝ᵥ e.2) := by
  have htranspose : (Mᵀ *ᵥ d.2) ⬝ᵥ e.1 = (M *ᵥ e.1) ⬝ᵥ d.2 := by
    rw [mulVec_transpose, ← dotProduct_mulVec, dotProduct_comm]
  simp only [energy, Prod.fst_sub, Prod.snd_sub, mulVec_sub, mulVec_smul, sub_dotProduct,
    dotProduct_sub, add_dotProduct, smul_dotProduct, smul_eq_mul, smul_sub, htranspose]
  rw [dotProduct_comm e.1 d.1, dotProduct_comm e.2 d.2]
  ring

/-! ### The step -/

/-- What holds of the nearest numbers of two numbers holds of those of two vectors. -/
theorem dotProduct_nearest_sub_nonneg {l u : Fin n → Extended}
    (h : ∀ j, ∃ s, Between (l j) (u j) s) (a b : Fin n → ℝ) :
    0 ≤ (a - b - ((fun j => nearest (l j) (u j) (a j)) - fun j => nearest (l j) (u j) (b j))) ⬝ᵥ
      ((fun j => nearest (l j) (u j) (a j)) - fun j => nearest (l j) (u j) (b j)) :=
  Finset.sum_nonneg fun j _ => mul_nearest_sub_nonneg (h j) (a j) (b j)

namespace Program

variable {P : Program m n}

/-- The step is firmly nonexpansive: two points lose of the energy of their difference at
    least the energy of the difference of their displacements. -/
theorem energy_step_le (hP : P.Bounded) (t : ℝ) (z w : Point m n) :
    energy P.coeff t (P.step t z - P.step t w) +
      energy P.coeff t (z - P.step t z - (w - P.step t w)) ≤ energy P.coeff t (z - w) := by
  have hprimal := dotProduct_nearest_sub_nonneg hP (z.1 - t • P.reducedCost z.2)
    (w.1 - t • P.reducedCost w.2)
  have hdual := dotProduct_nearest_sub_nonneg P.exists_between_signBound
    (z.2 - t • P.excess ((2 : ℝ) • P.stepPrimal t z - z.1))
    (w.2 - t • P.excess ((2 : ℝ) • P.stepPrimal t w - w.1))
  -- Of the moves, the differences are the ones by which the energy splits.
  have hmove : z.1 - t • P.reducedCost z.2 - (w.1 - t • P.reducedCost w.2) =
      (z - w).1 + t • (P.coeffᵀ *ᵥ (z - w).2) := by
    simp only [reducedCost, Prod.fst_sub, Prod.snd_sub, mulVec_sub, smul_sub]
    abel
  have hmove' : z.2 - t • P.excess ((2 : ℝ) • P.stepPrimal t z - z.1) -
      (w.2 - t • P.excess ((2 : ℝ) • P.stepPrimal t w - w.1)) =
        (z - w).2 - t • (P.coeff *ᵥ ((2 : ℝ) • (P.step t z - P.step t w).1 - (z - w).1)) := by
    simp only [excess, step, Prod.fst_sub, Prod.snd_sub, mulVec_sub, smul_sub]
    abel
  rw [hmove] at hprimal
  rw [hmove'] at hdual
  have hsplit := energy_sub_energy P.coeff t (z - w) (P.step t z - P.step t w)
  rw [sub_sub_sub_comm z w] at hsplit
  have hnonneg : 0 ≤ energy P.coeff t (z - w) - (energy P.coeff t (P.step t z - P.step t w) +
      energy P.coeff t (z - P.step t z - (w - P.step t w))) := by
    rw [hsplit]
    exact mul_nonneg zero_le_two (add_nonneg hprimal hdual)
  exact sub_nonneg.1 hnonneg

variable {t : ℝ} {zs : Point m n}

/-- A step toward a solution costs the energy of the displacement. -/
theorem energy_step_add_le (hP : P.Bounded) (hzs : P.step t zs = zs) (z : Point m n) :
    energy P.coeff t (P.step t z - zs) + energy P.coeff t (P.step t z - z) ≤
      energy P.coeff t (z - zs) := by
  have hle := energy_step_le hP t z zs
  rwa [hzs, sub_self, sub_zero, ← energy_neg _ _ (z - P.step t z), neg_sub] at hle

theorem energy_iterate_antitone (hP : P.Bounded) (ht : 0 ≤ t) (hnorm : t * ‖P.coeff‖ ≤ 1)
    (hzs : P.step t zs = zs) (z : Point m n) :
    Antitone fun k => energy P.coeff t ((P.step t)^[k] z - zs) := by
  refine antitone_nat_of_succ_le fun k => ?_
  have hle := energy_step_add_le hP hzs ((P.step t)^[k] z)
  rw [← Function.iterate_succ_apply' (P.step t)] at hle
  linarith [energy_nonneg ht hnorm ((P.step t)^[k + 1] z - (P.step t)^[k] z)]

/-- The energies of the displacements of a run sum up to no more than the energy that it
    starts with. -/
theorem sum_energy_add_le (hP : P.Bounded) (hzs : P.step t zs = zs) (z : Point m n) (K : ℕ) :
    ∑ k ∈ Finset.range K, energy P.coeff t ((P.step t)^[k + 1] z - (P.step t)^[k] z) +
      energy P.coeff t ((P.step t)^[K] z - zs) ≤ energy P.coeff t (z - zs) := by
  induction K with
  | zero => simp
  | succ K ih =>
    have hle := energy_step_add_le hP hzs ((P.step t)^[K] z)
    rw [← Function.iterate_succ_apply' (P.step t)] at hle
    rw [Finset.sum_range_succ]
    linarith

end Program

/-! ### The step of a problem -/

namespace Problem

/-- In the metric of its energy, the step of a problem is firmly nonexpansive. Under the bound
    on the step size, the iterates of a run on the problem come no further from any real
    iterate that the step leaves where it is, and their displacements sum up to no more than
    the energy that they start with. -/
theorem step_firmly_nonexpansive {p : Problem Extended} (hp : p.IsFinite) (hacc : p.Accepted)
    (hl : .top ∉ p.lower) (hu : .bot ∉ p.upper) {t : ℝ} (ht : 0 < t) :
    (∀ z w : Point p.rows p.cols, ∃ z' w', p.step (.real t) (.real z) = .real z' ∧
      p.step (.real t) (.real w) = .real w' ∧
      energy p.program.coeff t (z' - w') + energy p.program.coeff t (z - z' - (w - w')) ≤
        energy p.program.coeff t (z - w)) ∧
    (t ^ 2 * ‖p.program.coeff‖ ^ 2 < 1 → ∀ zs : Point p.rows p.cols,
      p.step (.real t) (.real zs) = .real zs → ∀ run : Run Extended, run.scaled.problem = p →
      run.stepSize = .real t → ∀ z₀ : Point p.rows p.cols, ∃ z : ℕ → Point p.rows p.cols,
        (∀ k, run.iterate (.real z₀) k = .real (z k)) ∧
        (Antitone fun k => energy p.program.coeff t (z k - zs)) ∧
        ∀ K, ∑ k ∈ Finset.range K, energy p.program.coeff t (z (k + 1) - z k) ≤
          energy p.program.coeff t (z₀ - zs)) := by
  have hP := hacc.bounded hl hu
  have hposes := hp.poses
  constructor
  · intro z w
    exact ⟨_, _, hposes.step hP t z, hposes.step hP t w, Program.energy_step_le hP t z w⟩
  · rintro hsmall zs hzs run rfl hstep z₀
    rw [hposes.step hP, Iterate.real_injective.eq_iff] at hzs
    have hnorm := (mul_norm_lt_one ht.le hsmall).le
    refine ⟨fun k => (run.scaled.problem.program.step t)^[k] z₀,
      run.iterate_real hposes hP hstep z₀,
      Program.energy_iterate_antitone hP ht.le hnorm hzs z₀, fun K => ?_⟩
    have hle := Program.sum_energy_add_le hP hzs z₀ K
    linarith [energy_nonneg ht.le hnorm ((run.scaled.problem.program.step t)^[K] z₀ - zs)]

/-- One fifth is a step size for the small program. -/
theorem fifth_norm_blend : (1 / 5 : ℝ) ^ 2 * ‖Program.blend.coeff‖ ^ 2 < 1 := by
  have hle := norm_sq_le_sum Program.blend.coeff
  rw [Program.coeff_blend] at hle ⊢
  norm_num [Fin.sum_univ_two] at hle
  linarith

/-- A run on the small program descends to the solution from everywhere. -/
theorem exists_descent_blend :
    ∃ run : Run Extended, run.scaled.problem = blend ∧ run.stepSize = .real (1 / 5) ∧
      ∀ z₀ : Point 2 2, ∃ z : ℕ → Point 2 2, (∀ k, run.iterate (.real z₀) k = .real (z k)) ∧
        (Antitone fun k => energy Program.blend.coeff (1 / 5) (z k - (![0, 1], ![9 / 8, 0]))) ∧
        ∀ K, ∑ k ∈ Finset.range K, energy Program.blend.coeff (1 / 5) (z (k + 1) - z k) ≤
          energy Program.blend.coeff (1 / 5) (z₀ - (![0, 1], ![9 / 8, 0])) := by
  obtain ⟨hacc, hl, hu⟩ := accepted_blend
  have hP := hacc.bounded hl hu
  have hpos : (0 : ℝ) < 1 / 5 := by norm_num
  have hfixed : blend.step (.real (1 / 5)) (.real ((![0, 1], ![9 / 8, 0]) : Point 2 2)) =
      .real ((![0, 1], ![9 / 8, 0]) : Point 2 2) := by
    refine (isFinite_blend.poses.step hP _ _).trans (congrArg Iterate.real ?_)
    exact (Program.step_eq_iff hP hpos _).2 ((Program.error_eq_zero_iff hP).1 Program.error_blend)
  exact ⟨⟨default, .identity blend, .real (1 / 5), fun _ => 0⟩, rfl, rfl,
    (step_firmly_nonexpansive isFinite_blend hacc hl hu hpos).2 fifth_norm_blend _ hfixed _ rfl rfl⟩

end Problem

end HybridGradient
