import HybridGradient.Proofs.RealMatrix
import HybridGradient.Proofs.Run
import Mathlib.LinearAlgebra.Matrix.Notation
import Mathlib.Tactic.FinCases
import Mathlib.Tactic.Ring

/-!
# Linear programs in real numbers

A linear program whose costs, coefficients and right-hand sides are real numbers, and
what is to be known of a point and multipliers for it: how far they are from satisfying
its conditions, and the two objectives.

* `Problem.program`: the program that a problem with finite data poses;
* `Program.Feasible`: the points among which the program minimises its cost;
* `Program.record`: the record of a point and multipliers, in closed form;
* `Problem.blend`: a problem with constraints and bounds of either kind.
-/

namespace HybridGradient

open Extended Matrix

/-- A linear program in real numbers, the bounds of which may be infinite. -/
structure Program (m n : ℕ) where
  /-- The cost of each variable. -/
  cost : Fin n → ℝ
  /-- The coefficients. -/
  coeff : Matrix (Fin m) (Fin n) ℝ
  /-- The right-hand side of each constraint. -/
  rhs : Fin m → ℝ
  /-- How many rows, from the first on, are equalities. -/
  equalities : ℕ
  /-- The lower bound of each variable. -/
  lower : Fin n → Extended
  /-- The upper bound of each variable. -/
  upper : Fin n → Extended
  /-- The equalities are among the rows. -/
  equalities_le : equalities ≤ m

/-! ### The program of a problem -/

/-- The costs, the coefficients and the right-hand sides of a problem are real numbers. -/
structure Problem.IsFinite (p : Problem Extended) : Prop where
  objective : ∀ a ∈ p.objective, Scalar.isFinite a = true
  matrix : ∀ e ∈ p.matrix.entries, Scalar.isFinite e.value = true
  rightSide : ∀ a ∈ p.rightSide, Scalar.isFinite a = true

namespace Problem

variable (p : Problem Extended)

/-- The program that a problem poses. A coefficient is what is stored at its position. -/
noncomputable def program : Program p.rows p.cols where
  cost j := p.objective[j.cast p.size_objective.symm].toReal
  coeff := Matrix.of fun i j => Entry.sumAt p.matrix.entries i j
  rhs i := p.rightSide[i.cast p.size_rightSide.symm].toReal
  equalities := p.equalities
  lower j := p.lower[j.cast p.size_lower.symm]
  upper j := p.upper[j.cast p.size_upper.symm]
  equalities_le := p.equalities_le

variable {p}

theorem IsFinite.objective_eq (h : p.IsFinite) : p.objective = Vec.real p.program.cost :=
  Vec.eq_real p.size_objective fun _ => eq_real_toReal (h.objective _ (Array.getElem_mem _))

theorem IsFinite.rightSide_eq (h : p.IsFinite) : p.rightSide = Vec.real p.program.rhs :=
  Vec.eq_real p.size_rightSide fun _ => eq_real_toReal (h.rightSide _ (Array.getElem_mem _))

theorem IsFinite.denotes (h : p.IsFinite) : p.matrix.Denotes p.program.coeff :=
  ⟨rfl, rfl, h.matrix, fun _ _ => rfl⟩

theorem lower_eq : p.lower = Array.ofFn p.program.lower :=
  Array.ext (p.size_lower.trans Array.size_ofFn.symm) fun j hj hj' => by
    rw [Array.getElem_ofFn]
    rfl

theorem upper_eq : p.upper = Array.ofFn p.program.upper :=
  Array.ext (p.size_upper.trans Array.size_ofFn.symm) fun j hj hj' => by
    rw [Array.getElem_ofFn]
    rfl

end Problem

/-! ### Violations and objectives -/

namespace Program

noncomputable section

/-- What a value is below a bound, if that is a real number. -/
def below : Extended → ℝ → ℝ
  | real l, x => max (l - x) 0
  | _, _ => 0

/-- What a value is above a bound, if that is a real number. -/
def above : Extended → ℝ → ℝ
  | real u, x => max (x - u) 0
  | _, _ => 0

/-- The part of a reduced cost that no real bound absorbs. -/
def unabsorbed : Extended → Extended → ℝ → ℝ
  | real _, real _, _ => 0
  | real _, _, r => max (-r) 0
  | _, real _, r => max r 0
  | _, _, r => r

/-- What the real bounds of a variable contribute to the dual objective. -/
def absorbed (l u : Extended) (r : ℝ) : ℝ := l.toReal * max r 0 - u.toReal * max (-r) 0

variable {m n : ℕ} (P : Program m n)

/-- What the left-hand sides exceed the right-hand sides by. -/
def excess (x : Fin n → ℝ) : Fin m → ℝ := P.coeff *ᵥ x - P.rhs

/-- The violation of each constraint. -/
def rowViolation (x : Fin n → ℝ) (i : Fin m) : ℝ :=
  if i < P.equalities then P.excess x i else max (-P.excess x i) 0

/-- The violation of the bounds of each variable. -/
def boundViolation (x : Fin n → ℝ) (j : Fin n) : ℝ :=
  below (P.lower j) (x j) + above (P.upper j) (x j)

/-- The reduced costs `c - Aᵀ y`. -/
def reducedCost (y : Fin m → ℝ) : Fin n → ℝ := P.cost - P.coeffᵀ *ᵥ y

/-- The violation of the dual constraint of each variable. -/
def costViolation (y : Fin m → ℝ) (j : Fin n) : ℝ :=
  unabsorbed (P.lower j) (P.upper j) (P.reducedCost y j)

/-- What the multiplier of each inequality is below zero. -/
def signViolation (y : Fin m → ℝ) (i : Fin m) : ℝ :=
  if i < P.equalities then 0 else max (-y i) 0

/-- The cost of a point. -/
def primalObjective (x : Fin n → ℝ) : ℝ := P.cost ⬝ᵥ x

/-- The bound on the cost that multipliers give. -/
def dualObjective (y : Fin m → ℝ) : ℝ :=
  P.rhs ⬝ᵥ y + ∑ j, absorbed (P.lower j) (P.upper j) (P.reducedCost y j)

/-- The distance of the two objectives. -/
def gap (x : Fin n → ℝ) (y : Fin m → ℝ) : ℝ := |P.primalObjective x - P.dualObjective y|

/-- How far a point is from satisfying constraints and bounds. -/
def primalResidual (x : Fin n → ℝ) : ℝ :=
  √(length (P.rowViolation x) * length (P.rowViolation x) +
    length (P.boundViolation x) * length (P.boundViolation x))

/-- How far multipliers are from satisfying the dual constraints. -/
def dualResidual (y : Fin m → ℝ) : ℝ :=
  √(length (P.costViolation y) * length (P.costViolation y) +
    length (P.signViolation y) * length (P.signViolation y))

/-- Both residuals and the gap in one number. -/
def error (x : Fin n → ℝ) (y : Fin m → ℝ) : ℝ :=
  √(P.primalResidual x * P.primalResidual x + P.dualResidual y * P.dualResidual y +
    P.gap x y * P.gap x y)

/-- The reduced costs of a point are its cost, less what the multipliers make of its rows. -/
theorem reducedCost_dotProduct (x : Fin n → ℝ) (y : Fin m → ℝ) :
    P.reducedCost y ⬝ᵥ x = P.cost ⬝ᵥ x - y ⬝ᵥ (P.coeff *ᵥ x) := by
  rw [reducedCost, sub_dotProduct, mulVec_transpose, ← dotProduct_mulVec]

/-- The record of a point and multipliers, and of the displacement that led to them. -/
def record (x dx : Fin n → ℝ) (y dy : Fin m → ℝ) (iteration : ℕ) (passes elapsed : Float) :
    Record Extended where
  iteration := iteration
  passes := passes
  elapsed := elapsed
  error := .real (P.error x y)
  primalObjective := .real (P.primalObjective x)
  dualObjective := .real (P.dualObjective y)
  gap := .real (P.gap x y)
  primalResidual := .real (P.primalResidual x)
  dualResidual := .real (P.dualResidual y)
  primalMove := .real (length dx)
  dualMove := .real (length dy)

end

/-- A point satisfies the constraints and lies within the bounds. -/
structure Feasible {m n : ℕ} (P : Program m n) (x : Fin n → ℝ) : Prop where
  equality : ∀ i : Fin m, i < P.equalities → (P.coeff *ᵥ x) i = P.rhs i
  inequality : ∀ i : Fin m, ¬ i < P.equalities → P.rhs i ≤ (P.coeff *ᵥ x) i
  lower_le : ∀ j, P.lower j ≤ .real (x j)
  le_upper : ∀ j, .real (x j) ≤ P.upper j

end Program

/-! ### A small program -/

/-- An equation and an inequality with uneven coefficients, in two variables of which the first
    has only a lower bound and the second only an upper one. -/
noncomputable def Problem.blend : Problem Extended where
  objective := #[.real 5, .real 1]
  matrix := .ofEntries 2 2 .byColumn
    [⟨0, 0, .real 4⟩, ⟨0, 1, .real 1⟩, ⟨1, 0, .real (-1 / 2)⟩, ⟨1, 1, .real (1 / 4)⟩] (by simp)
  rightSide := #[.real 1, .real (-1)]
  equalities := 1
  lower := #[.real 0, .bot]
  upper := #[.top, .real 1]
  size_objective := rfl
  size_rightSide := rfl
  size_lower := rfl
  size_upper := rfl
  equalities_le := by decide

theorem Problem.entries_blend : blend.matrix.entries = [⟨0, 0, .real 4⟩, ⟨1, 0, .real (-1 / 2)⟩,
    ⟨0, 1, .real 1⟩, ⟨1, 1, .real (1 / 4)⟩] := rfl

theorem Problem.isFinite_blend : blend.IsFinite where
  objective := by simp [blend]
  matrix := by simp [entries_blend]
  rightSide := by simp [blend]

namespace Program

/-- The program that it poses. -/
noncomputable def blend : Program 2 2 := Problem.blend.program

theorem cost_blend : blend.cost = ![5, 1] := by
  funext j
  fin_cases j <;> rfl

theorem coeff_blend : blend.coeff = !![4, 1; -1 / 2, 1 / 4] := by
  ext i j
  change Entry.sumAt Problem.blend.matrix.entries i j = _
  rw [Problem.entries_blend]
  fin_cases i <;> fin_cases j <;> simp [Entry.sumAt, Entry.valueAt]

theorem rhs_blend : blend.rhs = ![1, -1] := by
  funext i
  fin_cases i <;> rfl

theorem equalities_blend : blend.equalities = 1 := rfl

theorem lower_blend : blend.lower = ![.real 0, .bot] := by
  funext j
  fin_cases j <;> rfl

theorem upper_blend : blend.upper = ![.top, .real 1] := by
  funext j
  fin_cases j <;> rfl

theorem excess_blend (x : Fin 2 → ℝ) :
    blend.excess x = ![4 * x 0 + x 1 - 1, -1 / 2 * x 0 + 1 / 4 * x 1 + 1] := by
  funext i
  rw [excess, coeff_blend, rhs_blend]
  fin_cases i <;> simp [dotProduct, Fin.sum_univ_two]

theorem reducedCost_blend (y : Fin 2 → ℝ) :
    blend.reducedCost y = ![5 - (4 * y 0 - 1 / 2 * y 1), 1 - (y 0 + 1 / 4 * y 1)] := by
  funext j
  rw [reducedCost, coeff_blend, cost_blend, Pi.sub_apply, mulVec, dotProduct, Fin.sum_univ_two]
  fin_cases j
  · simp
    ring
  · simp

end Program

end HybridGradient
