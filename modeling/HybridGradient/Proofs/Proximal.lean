import HybridGradient.Proofs.EntryOrder
import HybridGradient.Proofs.RealStep

/-!
# The step as a pair of proximal problems

A move against a cost that is followed by clamping solves a small problem: among the numbers
between the bounds, it finds the one at which the cost and the square of the distance that is
covered, in proportion to the size of the move, are least together. The step makes such moves
in all variables and all multipliers, so each half of it solves a problem of this kind for the
Lagrangian.

* `Extended.proximal_nearest`: the problem of one variable;
* `Program.primalModel`, `Program.dualModel`: the problems of the point and of the multipliers;
* `Program.primalModel_lt`, `Program.lt_dualModel`: the step is their only solution;
* `Problem.step_proximal`: what the step of a problem solves, in terms of the triplets that its
  matrix was made from.
-/

namespace HybridGradient

open Extended Matrix

variable {m n : ℕ}

/-! ### Moves against a cost -/

/-- The cost of a vector and the square of its distance from another one. -/
noncomputable def proximal (r x : Fin n → ℝ) (t : ℝ) (s : Fin n → ℝ) : ℝ :=
  r ⬝ᵥ s + length (s - x) ^ 2 / (2 * t)

/-- At any other number between the bounds the problem of one variable has a greater value than
    at the nearest number to a move, by at least the square of their distance. -/
theorem Extended.proximal_nearest {l u : Extended} {s : ℝ} (hs : Between l u s) {t : ℝ}
    (ht : 0 < t) (x r : ℝ) :
    r * nearest l u (x - t * r) + (nearest l u (x - t * r) - x) ^ 2 / (2 * t) +
      (s - nearest l u (x - t * r)) ^ 2 / (2 * t) ≤ r * s + (s - x) ^ 2 / (2 * t) := by
  have hvar := nearest_variational hs (x - t * r)
  set c := nearest l u (x - t * r)
  -- The two sides differ by the product of which the variational inequality speaks.
  have hdiff : r * s + (s - x) ^ 2 / (2 * t) -
      (r * c + (c - x) ^ 2 / (2 * t) + (s - c) ^ 2 / (2 * t)) =
        -((x - t * r - c) * (s - c)) / t := by
    field_simp
    ring
  have hnonneg : 0 ≤ -((x - t * r - c) * (s - c)) / t := div_nonneg (neg_nonneg.2 hvar) ht.le
  linarith

theorem length_sq (x : Fin n → ℝ) : length x ^ 2 = ∑ j, x j ^ 2 := by
  rw [sq, length_mul_self]
  exact Finset.sum_congr rfl fun j _ => (sq (x j)).symm

theorem proximal_eq_sum (r x : Fin n → ℝ) (t : ℝ) (s : Fin n → ℝ) :
    proximal r x t s = ∑ j, (r j * s j + (s j - x j) ^ 2 / (2 * t)) := by
  rw [proximal, length_sq, Finset.sum_div, dotProduct, ← Finset.sum_add_distrib]
  rfl

/-- Only the vector of nearest numbers solves the problem of all variables. -/
theorem proximal_lt {l u : Fin n → Extended} {t : ℝ} (ht : 0 < t) {x r c s : Fin n → ℝ}
    (hc : ∀ j, c j = nearest (l j) (u j) (x j - t * r j)) (hs : ∀ j, Between (l j) (u j) (s j))
    (hne : s ≠ c) : proximal r x t c < proximal r x t s := by
  have hdist : 0 < length (s - c) ^ 2 / (2 * t) :=
    div_pos (pow_pos (length_pos.2 (sub_ne_zero.2 hne)) 2) (by linarith)
  have hsum : proximal r x t c + length (s - c) ^ 2 / (2 * t) ≤ proximal r x t s := by
    rw [proximal_eq_sum, proximal_eq_sum, length_sq, Finset.sum_div, ← Finset.sum_add_distrib]
    refine Finset.sum_le_sum fun j _ => ?_
    rw [Pi.sub_apply, hc j]
    exact proximal_nearest (hs j) ht (x j) (r j)
  linarith

/-! ### The problems of a step -/

namespace Program

variable (P : Program m n)

/-- What the point after a step minimises: the Lagrangian, up to a constant, and the square of
    the distance from the point before. -/
noncomputable def primalModel (t : ℝ) (z : Point m n) (x : Fin n → ℝ) : ℝ :=
  P.cost ⬝ᵥ x - z.2 ⬝ᵥ (P.coeff *ᵥ x) + length (x - z.1) ^ 2 / (2 * t)

/-- What the multipliers after a step maximise, which leads to the point `new`. -/
noncomputable def dualModel (t : ℝ) (z : Point m n) (new : Fin n → ℝ) (y : Fin m → ℝ) : ℝ :=
  P.rhs ⬝ᵥ y - y ⬝ᵥ (P.coeff *ᵥ ((2 : ℝ) • new - z.1)) - length (y - z.2) ^ 2 / (2 * t)

variable {P} {t : ℝ} {z : Point m n}

theorem primalModel_eq (x : Fin n → ℝ) :
    P.primalModel t z x = proximal (P.reducedCost z.2) z.1 t x := by
  rw [primalModel, proximal, reducedCost_dotProduct]

theorem dualModel_eq (new : Fin n → ℝ) (y : Fin m → ℝ) :
    P.dualModel t z new y = -proximal (P.excess ((2 : ℝ) • new - z.1)) z.2 t y := by
  rw [dualModel, proximal, excess, sub_dotProduct, dotProduct_comm y]
  ring

theorem stepPrimal_mem_box (hP : P.Bounded) (t : ℝ) (z : Point m n) :
    P.stepPrimal t z ∈ P.box := fun j => between_nearest (hP j) _

theorem stepDual_mem_multipliers (t : ℝ) (z : Point m n) :
    P.stepDual t z ∈ P.multipliers :=
  mem_multipliers.2 fun i => between_nearest (P.exists_between_signBound i) _

/-- The point after a step is the only minimiser among the points within their bounds. -/
theorem primalModel_lt (ht : 0 < t) {x : Fin n → ℝ} (hx : x ∈ P.box)
    (hne : x ≠ P.stepPrimal t z) :
    P.primalModel t z (P.stepPrimal t z) < P.primalModel t z x := by
  rw [primalModel_eq, primalModel_eq]
  exact proximal_lt ht (fun _ => rfl) hx hne

/-- The multipliers after a step are the only maximisers. -/
theorem lt_dualModel (ht : 0 < t) {y : Fin m → ℝ} (hy : y ∈ P.multipliers)
    (hne : y ≠ P.stepDual t z) :
    P.dualModel t z (P.stepPrimal t z) y < P.dualModel t z (P.stepPrimal t z) (P.stepDual t z) := by
  rw [dualModel_eq, dualModel_eq, neg_lt_neg_iff]
  exact proximal_lt ht (fun _ => rfl) (mem_multipliers.1 hy) hne

theorem stepPrimal_blend : blend.stepPrimal 1 (![0, 0], ![0, 0]) = ![0, -1] := by
  have hbot : ¬ real (-1) < bot := id
  funext j
  rw [stepPrimal, reducedCost_blend, lower_blend, upper_blend]
  fin_cases j <;> norm_num [nearest, Scalar.clamp, hbot]

theorem stepDual_blend : blend.stepDual 1 (![0, 0], ![0, 0]) = ![3, 0] := by
  have hbot : ¬ real 3 < bot := id
  have htop : ¬ top < real 3 := id
  funext i
  rw [stepDual, stepPrimal_blend, excess_blend, signBound, equalities_blend]
  fin_cases i <;> norm_num [nearest, Scalar.clamp, hbot, htop]

end Program

/-! ### Problems that are made from triplets -/

/-- A step of size zero projects. -/
theorem Problem.Poses.step_zero {p : Problem Extended} {P : Program m n} (h : p.Poses P)
    (hP : P.Bounded) (z : Point m n) :
    p.step 0 (.real z) = ⟨p.projectPrimal (Vec.real z.1), p.projectDual (Vec.real z.2)⟩ := by
  have hx : P.stepPrimal 0 z = fun j => nearest (P.lower j) (P.upper j) (z.1 j) := by
    funext j
    rw [Program.stepPrimal, zero_mul, sub_zero]
  have hy : P.stepDual 0 z = fun i => nearest (P.signBound i) top (z.2 i) := by
    funext i
    rw [Program.stepDual, zero_mul, sub_zero]
  rw [zero_eq, h.step hP, h.projectPrimal hP, h.projectDual, ← hx, ← hy]
  rfl

/-- A matrix of real numbers that is made from triplets, whichever way it is stored, stands for
    the sums of the triplets, which are real themselves. -/
theorem SparseMatrix.Denotes.of_ofTriplets? {A B : SparseMatrix Extended}
    {triplets : List (Entry Extended)} (hA : ofTriplets? m n triplets = .ok A)
    (hB : B = A ∨ ∃ s, A.reorder? s = .ok B)
    (hreal : ∀ e ∈ B.entries, Scalar.isFinite e.value = true) :
    (∀ e ∈ triplets, Scalar.isFinite e.value = true) ∧
      B.Denotes (Matrix.of fun (i : Fin m) (j : Fin n) => Entry.sumAt triplets i j) := by
  obtain ⟨hbounds, -, rfl⟩ := eq_of_ofTriplets? hA
  rcases hB with rfl | ⟨s, hs⟩
  · have htriplets := Storage.isFinite_of_collect .byColumn hreal
    exact ⟨htriplets, denotes_ofEntries hbounds htriplets⟩
  · obtain rfl := eq_of_reorder? hs
    have htriplets := Storage.isFinite_of_collect .byColumn (Storage.isFinite_of_collect s hreal)
    exact ⟨htriplets, (denotes_ofEntries hbounds htriplets).reorder s⟩

namespace Problem

/-- The step of a problem whose coefficients are the sums of triplets. A step of positive size
    leads to the only minimiser of the first and the only maximiser of the second model, and one
    of size zero projects. -/
theorem step_proximal {p : Problem Extended} (hp : p.IsFinite) (hacc : p.Accepted)
    (hl : .top ∉ p.lower) (hu : .bot ∉ p.upper) {A : SparseMatrix Extended}
    {triplets : List (Entry Extended)}
    (hA : SparseMatrix.ofTriplets? p.rows p.cols triplets = .ok A)
    (hmatrix : p.matrix = A ∨ ∃ s, A.reorder? s = .ok p.matrix) (x : Fin p.cols → ℝ)
    (y : Fin p.rows → ℝ) :
    ((∀ e ∈ triplets, Scalar.isFinite e.value = true) ∧
      p.program.coeff =
        Matrix.of fun (i : Fin p.rows) (j : Fin p.cols) => Entry.sumAt triplets i j) ∧
    (∀ t, 0 < t → ∃ x' y',
      p.step (.real t) ⟨Vec.real x, Vec.real y⟩ = ⟨Vec.real x', Vec.real y'⟩ ∧
      (x' ∈ p.program.box ∧ ∀ s ∈ p.program.box, s ≠ x' →
        p.program.primalModel t (x, y) x' < p.program.primalModel t (x, y) s) ∧
      (y' ∈ p.program.multipliers ∧ ∀ s ∈ p.program.multipliers, s ≠ y' →
        p.program.dualModel t (x, y) x' s < p.program.dualModel t (x, y) x' y')) ∧
    p.step 0 ⟨Vec.real x, Vec.real y⟩ =
      ⟨p.projectPrimal (Vec.real x), p.projectDual (Vec.real y)⟩ := by
  have hP := hacc.bounded hl hu
  obtain ⟨htriplets, hdenotes⟩ := SparseMatrix.Denotes.of_ofTriplets? hA hmatrix hp.matrix
  refine ⟨⟨htriplets, ?_⟩, fun t ht => ?_, hp.poses.step_zero hP (x, y)⟩
  · ext i j
    rw [hp.denotes.apply, hdenotes.apply]
  · exact ⟨_, _, hp.poses.step hP t (x, y),
      ⟨Program.stepPrimal_mem_box hP t (x, y), fun s hs => Program.primalModel_lt ht hs⟩,
      Program.stepDual_mem_multipliers t (x, y), fun s hs => Program.lt_dualModel ht hs⟩

/-- The matrix of the small problem, one coefficient of which is made from two triplets. -/
theorem ofTriplets?_blend : SparseMatrix.ofTriplets? 2 2 [⟨0, 0, .real 3⟩, ⟨0, 1, .real 1⟩,
    ⟨1, 0, .real (-1 / 2)⟩, ⟨1, 1, .real (1 / 4)⟩, ⟨0, 0, .real 1⟩] = .ok blend.matrix := by
  have hsum : real 4 = real 3 + real 1 := congrArg real (by norm_num)
  rw [SparseMatrix.ofTriplets?_eq (by simp) rfl, blend]
  simp only [SparseMatrix.ofEntries, Except.ok.injEq, SparseMatrix.mk.injEq, true_and]
  rw [hsum]
  rfl

/-- A step of size one on the small problem. One variable is clamped, and so is the multiplier of
    the inequality. -/
theorem step_proximal_blend :
    blend.step (.real 1) ⟨Vec.real ![0, 0], Vec.real ![0, 0]⟩ =
      ⟨Vec.real ![0, -1], Vec.real ![3, 0]⟩ ∧
    (∀ s ∈ Program.blend.box, s ≠ ![0, -1] →
      Program.blend.primalModel 1 (![0, 0], ![0, 0]) ![0, -1] <
        Program.blend.primalModel 1 (![0, 0], ![0, 0]) s) ∧
    ∀ s ∈ Program.blend.multipliers, s ≠ ![3, 0] →
      Program.blend.dualModel 1 (![0, 0], ![0, 0]) ![0, -1] s <
        Program.blend.dualModel 1 (![0, 0], ![0, 0]) ![0, -1] ![3, 0] := by
  obtain ⟨hacc, hl, hu⟩ := accepted_blend
  obtain ⟨-, hstep, -⟩ := step_proximal isFinite_blend hacc hl hu ofTriplets?_blend (.inl rfl)
    ![0, 0] ![0, 0]
  obtain ⟨x, y, heq, ⟨-, hx⟩, -, hy⟩ := hstep 1 one_pos
  have hnew : Program.blend.step 1 (![0, 0], ![0, 0]) = ((x, y) : Point 2 2) :=
    Iterate.real_injective ((isFinite_blend.poses.step (hacc.bounded hl hu) 1 _).symm.trans heq)
  obtain rfl : x = ![0, -1] := (congrArg Prod.fst hnew).symm.trans Program.stepPrimal_blend
  obtain rfl : y = ![3, 0] := (congrArg Prod.snd hnew).symm.trans Program.stepDual_blend
  exact ⟨heq, hx, hy⟩

end Problem

end HybridGradient
