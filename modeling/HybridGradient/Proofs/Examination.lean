import HybridGradient.Optimality
import HybridGradient.Proofs.Program
import Mathlib.Algebra.BigOperators.Field

/-!
# The examination of a scaled iterate

A scaled problem is examined in the space of the program that it was made from. In exact
arithmetic the record of the images of a point and multipliers does not depend on the
factors at all: it is the one of the program at that point and these multipliers.

* `Scaled.Scales`: a scaled problem is a program scaled by positive factors;
* `Scaled.Scales.evaluate`: its records are those of the program.
-/

namespace HybridGradient

open Extended Matrix

variable {m n : ℕ}

/-! ### Single variables -/

theorem boundViolation_real (l u : Extended) (x : ℝ) :
    boundViolation (l, u) (.real x) = .real (Program.below l x + Program.above u x) := by
  cases l <;> cases u <;> simp [boundViolation, Program.below, Program.above, zero_eq,
    Scalar.isFinite, isReal]

theorem unabsorbed_real (l u : Extended) (r : ℝ) :
    unabsorbed (l, u) (.real r) = .real (Program.unabsorbed l u r) := by
  cases l <;> cases u <;> simp [unabsorbed, Program.unabsorbed, zero_eq, Scalar.isFinite, isReal]

theorem addBoundCost_real (t : ℝ) (l u : Extended) (r : ℝ) :
    addBoundCost (.real t) (l, u) (.real r) = .real (t + Program.absorbed l u r) := by
  cases l <;> cases u <;> simp [addBoundCost, Program.absorbed, toReal, Scalar.isFinite, isReal,
    sub_eq_add_neg, add_assoc]

/-! ### Matrices with scaled lines -/

/-- A matrix with its rows and columns divided by factors. -/
noncomputable def descale (M : Matrix (Fin m) (Fin n) ℝ) (r : Fin m → ℝ) (v : Fin n → ℝ) :
    Matrix (Fin m) (Fin n) ℝ :=
  Matrix.of fun i j => M i j / (r i * v j)

theorem descale_transpose (M : Matrix (Fin m) (Fin n) ℝ) (r : Fin m → ℝ) (v : Fin n → ℝ) :
    (descale M r v)ᵀ = descale Mᵀ v r := by
  ext j i
  rw [transpose_apply, descale, descale, of_apply, of_apply, transpose_apply, mul_comm]

/-- The factors of the columns cancel against those of the vector. -/
theorem descale_mulVec (M : Matrix (Fin m) (Fin n) ℝ) (r : Fin m → ℝ) {v : Fin n → ℝ}
    (hv : ∀ j, 0 < v j) (x : Fin n → ℝ) : descale M r v *ᵥ (v * x) = (M *ᵥ x) / r := by
  funext i
  rw [Pi.div_apply, mulVec, mulVec, dotProduct, dotProduct, Finset.sum_div]
  refine Finset.sum_congr rfl fun j _ => ?_
  have := (hv j).ne'
  rw [descale, of_apply, Pi.mul_apply, div_mul_eq_mul_div, mul_comm (r i), ← mul_assoc,
    mul_comm (M i j), mul_assoc, mul_div_mul_left _ _ this]

theorem div_dotProduct_mul {d : Fin n → ℝ} (hd : ∀ j, 0 < d j) (x y : Fin n → ℝ) :
    (x / d) ⬝ᵥ (d * y) = x ⬝ᵥ y := by
  refine Finset.sum_congr rfl fun j _ => ?_
  rw [Pi.div_apply, Pi.mul_apply, ← mul_assoc, div_mul_cancel₀ _ (hd j).ne']

theorem mul_div_cancel_factors {d : Fin n → ℝ} (hd : ∀ j, 0 < d j) (x : Fin n → ℝ) :
    d * x / d = x := by
  funext j
  exact mul_div_cancel_left₀ _ (hd j).ne'

theorem div_sub_div_factors (x y d : Fin n → ℝ) : x / d - y / d = (x - y) / d := by
  funext j
  exact (sub_div _ _ _).symm

theorem div_mul_cancel_factors {d : Fin n → ℝ} (hd : ∀ j, 0 < d j) (x : Fin n → ℝ) :
    x / d * d = x := by
  funext j
  exact div_mul_cancel₀ _ (hd j).ne'

/-! ### Scaled problems -/

namespace Scaled

/-- A scaled problem is a program, scaled by factors of its rows and columns. -/
structure Scales (s : Scaled Extended) (P : Program m n) (r : Fin m → ℝ) (v : Fin n → ℝ) :
    Prop where
  variableFactors : s.variableFactors = Vec.real v
  constraintFactors : s.constraintFactors = Vec.real r
  variable_pos : ∀ j, 0 < v j
  constraint_pos : ∀ i, 0 < r i
  objective : s.problem.objective = Vec.real (P.cost / v)
  matrix : s.problem.matrix.Denotes (descale P.coeff r v)
  rightSide : s.problem.rightSide = Vec.real (P.rhs / r)
  equalities : s.problem.equalities = P.equalities
  lower : s.unscalePrimal s.problem.lower = Array.ofFn P.lower
  upper : s.unscalePrimal s.problem.upper = Array.ofFn P.upper

variable {s : Scaled Extended} {P : Program m n} {r : Fin m → ℝ} {v : Fin n → ℝ}

namespace Scales

theorem scalePrimal (h : s.Scales P r v) (x : Fin n → ℝ) :
    s.scalePrimal (Vec.real x) = Vec.real (v * x) := by
  rw [Scaled.scalePrimal, h.variableFactors, image_real]

theorem scaleDual (h : s.Scales P r v) (y : Fin m → ℝ) :
    s.scaleDual (Vec.real y) = Vec.real (r * y) := by
  rw [Scaled.scaleDual, h.constraintFactors, image_real]

theorem unscalePrimal (h : s.Scales P r v) (x : Fin n → ℝ) :
    s.unscalePrimal (Vec.real (v * x)) = Vec.real x := by
  rw [Scaled.unscalePrimal, h.variableFactors, Vec.divide_real fun j => (h.variable_pos j).ne',
    mul_div_cancel_factors h.variable_pos]

theorem unscaleDual (h : s.Scales P r v) (y : Fin m → ℝ) :
    s.unscaleDual (Vec.real (r * y)) = Vec.real y := by
  rw [Scaled.unscaleDual, h.constraintFactors, Vec.divide_real fun i => (h.constraint_pos i).ne',
    mul_div_cancel_factors h.constraint_pos]

/-- Whatever point and multipliers belong to a scaled problem, they are the images of others. -/
theorem exists_unscaled (h : s.Scales P r v) (x : Fin n → ℝ) (y : Fin m → ℝ) :
    ∃ x₀ y₀, v * x₀ = x ∧ r * y₀ = y :=
  ⟨x / v, y / r, by rw [mul_comm, div_mul_cancel_factors h.variable_pos],
    by rw [mul_comm, div_mul_cancel_factors h.constraint_pos]⟩

theorem bounds (h : s.Scales P r v) :
    s.bounds = Array.ofFn fun j => (P.lower j, P.upper j) := by
  rw [Scaled.bounds, h.lower, h.upper, Array.zip]
  exact Vec.zipWith_ofFn _ _ _

theorem rowViolations (h : s.Scales P r v) (x : Fin n → ℝ) :
    s.rowViolations (Vec.real (v * x)) = Vec.real (P.rowViolation x) := by
  -- The factors of the variables cancel in the product, and those of the constraints are
  -- multiplied back.
  have hproduct : s.problem.matrix.product 1 (Vec.real (v * x)) (-1) s.problem.rightSide =
      Vec.real (P.excess x / r) := by
    rw [one_eq, neg_real, h.rightSide, h.matrix.product, descale_mulVec _ _ h.variable_pos,
      one_smul, neg_one_smul, neg_add_eq_sub, div_sub_div_factors, Program.excess]
  rw [Scaled.rowViolations, hproduct, h.constraintFactors, Vec.times_real,
    div_mul_cancel_factors h.constraint_pos, h.equalities]
  refine (Vec.mapIdx_real _ _).trans ?_
  rw [Vec.real]
  congr 1
  funext i
  by_cases hi : i < P.equalities
  · rw [Program.rowViolation, if_pos hi, if_pos hi]
  · rw [Program.rowViolation, if_neg hi, if_neg hi, neg_real, positivePart_real]

theorem boundViolations (h : s.Scales P r v) (x : Fin n → ℝ) :
    s.boundViolations (Vec.real (v * x)) = Vec.real (P.boundViolation x) := by
  rw [Scaled.boundViolations, h.bounds, h.unscalePrimal, Vec.real, Vec.zipWith_ofFn]
  congr 1
  funext j
  exact boundViolation_real _ _ _

theorem reducedCosts (h : s.Scales P r v) (y : Fin m → ℝ) :
    s.reducedCosts (Vec.real (r * y)) = Vec.real (P.reducedCost y) := by
  have hproduct : s.problem.matrix.transposeProduct (-1) (Vec.real (r * y)) 1
      s.problem.objective = Vec.real (P.reducedCost y / v) := by
    rw [one_eq, neg_real, h.objective, h.matrix.transposeProduct, descale_transpose,
      descale_mulVec _ _ h.constraint_pos, one_smul, neg_one_smul, ← sub_eq_add_neg,
      div_sub_div_factors, Program.reducedCost]
  rw [Scaled.reducedCosts, hproduct, h.variableFactors, Vec.times_real,
    div_mul_cancel_factors h.variable_pos]

theorem costViolations (h : s.Scales P r v) (y : Fin m → ℝ) :
    s.costViolations (Vec.real (r * y)) = Vec.real (P.costViolation y) := by
  rw [Scaled.costViolations, h.bounds, h.reducedCosts, Vec.real, Vec.zipWith_ofFn]
  congr 1
  funext j
  exact unabsorbed_real _ _ _

theorem norm_signViolations (h : s.Scales P r v) (y : Fin m → ℝ) :
    Vec.norm (s.signViolations (Vec.real (r * y))) = .real (length (P.signViolation y)) := by
  have hmap : (Vec.real y).map (fun v => Scalar.positivePart (-v)) =
      Vec.real fun i => max (-y i) 0 := by
    rw [Vec.real, Array.map_ofFn, Vec.real]
    congr 1
    funext i
    exact positivePart_real _
  rw [Scaled.signViolations, h.unscaleDual, h.equalities, Array.map_extract, hmap,
    Vec.size_real, Vec.norm_extract_real _ P.equalities_le]
  rfl

theorem boundCost (h : s.Scales P r v) (y : Fin m → ℝ) :
    s.boundCost (Vec.real (r * y)) =
      .real (∑ j, Program.absorbed (P.lower j) (P.upper j) (P.reducedCost y j)) := by
  rw [Scaled.boundCost, h.bounds, h.reducedCosts, Array.zip, Vec.real, Vec.zipWith_ofFn]
  exact Vec.foldl_ofFn fun t j => addBoundCost_real _ _ _ _

theorem primalObjective (h : s.Scales P r v) (x : Fin n → ℝ) :
    s.primalObjective (Vec.real (v * x)) = .real (P.primalObjective x) := by
  rw [Scaled.primalObjective, h.objective, Vec.inner_real, div_dotProduct_mul h.variable_pos,
    Program.primalObjective]

theorem dualObjective (h : s.Scales P r v) (y : Fin m → ℝ) :
    s.dualObjective (Vec.real (r * y)) = .real (P.dualObjective y) := by
  rw [Scaled.dualObjective, h.rightSide, Vec.inner_real, div_dotProduct_mul h.constraint_pos,
    h.boundCost, add_real, Program.dualObjective]

/-- The error does not depend on the displacement. -/
theorem error_evaluate (h : s.Scales P r v) (x : Fin n → ℝ) (y : Fin m → ℝ)
    (move : Iterate Extended) (iteration : ℕ) (passes elapsed : Float) :
    (s.evaluate ⟨Vec.real (v * x), Vec.real (r * y)⟩ move iteration passes elapsed).error =
      .real (P.error x y) := by
  simp only [Scaled.evaluate, h.rowViolations, h.boundViolations, h.costViolations,
    h.norm_signViolations, h.primalObjective, h.dualObjective, Vec.norm_real, hypot_real,
    sub_real, abs_real, mul_real, Extended.add_real]
  exact sqrt_real (by positivity)

/-- The record of the images of a point and multipliers is the one of the program. -/
theorem evaluate (h : s.Scales P r v) (x dx : Fin n → ℝ) (y dy : Fin m → ℝ) (iteration : ℕ)
    (passes elapsed : Float) :
    s.evaluate ⟨Vec.real (v * x), Vec.real (r * y)⟩ ⟨Vec.real (v * dx), Vec.real (r * dy)⟩
      iteration passes elapsed = P.record x dx y dy iteration passes elapsed := by
  have herror := h.error_evaluate x y ⟨Vec.real (v * dx), Vec.real (r * dy)⟩ iteration passes
    elapsed
  rw [Scaled.evaluate] at herror ⊢
  simp only [h.rowViolations, h.boundViolations, h.costViolations, h.norm_signViolations,
    h.primalObjective, h.dualObjective, h.unscalePrimal, h.unscaleDual, Vec.norm_real, hypot_real,
    sub_real, abs_real] at herror ⊢
  rw [herror]
  rfl

end Scales

end Scaled

end HybridGradient
