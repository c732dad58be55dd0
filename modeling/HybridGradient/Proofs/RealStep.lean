import HybridGradient.Proofs.Balancing
import HybridGradient.Proofs.Bounds

/-!
# The step in real numbers

With real data, and a real number between the bounds of each variable, the step leads from
real vectors to real vectors. A point and multipliers are treated alike: both move against
a cost, which is the reduced cost for the point and the excess for the multipliers, and are
then clamped, the multipliers of the inequalities to the numbers from zero on.

* `Program.box`, `Program.multipliers`: the points within their bounds, and the multipliers;
* `Program.step`, `Problem.Poses.step`: the step of a program, which is the one of each
  problem that poses it;
* `Program.scaled`, `Scaled.Scales.poses`: a program with its lines scaled, which is the one
  that a scaled problem poses;
* `Run.iterate_real`: the iterates of a run are those of the step of a program.
-/

namespace HybridGradient

open Extended Matrix

variable {m n : ℕ}

/-- A point and multipliers in real numbers. -/
abbrev Point (m n : ℕ) : Type := (Fin n → ℝ) × (Fin m → ℝ)

/-- The iterate of a point and multipliers. -/
def Iterate.real (z : Point m n) : Iterate Extended := ⟨Vec.real z.1, Vec.real z.2⟩

theorem Vec.real_injective : Function.Injective (real : (Fin n → ℝ) → Vec Extended) := by
  intro x y h
  funext j
  have hj := congrArg (fun v : Vec Extended => v.getD j 0) h
  rw [getD_real, getD_real] at hj
  exact Extended.real_injective hj

theorem Iterate.real_injective : Function.Injective (real : Point m n → Iterate Extended) :=
  fun _ _ h => Prod.ext (Vec.real_injective (congrArg Iterate.primal h))
    (Vec.real_injective (congrArg Iterate.dual h))

/-! ### Programs that are posed -/

/-- A problem has the data of a program. -/
structure Problem.Poses (p : Problem Extended) (P : Program m n) : Prop where
  objective : p.objective = Vec.real P.cost
  matrix : p.matrix.Denotes P.coeff
  rightSide : p.rightSide = Vec.real P.rhs
  equalities : p.equalities = P.equalities
  lower : p.lower = Array.ofFn P.lower
  upper : p.upper = Array.ofFn P.upper

theorem Problem.IsFinite.poses {p : Problem Extended} (h : p.IsFinite) : p.Poses p.program :=
  ⟨h.objective_eq, h.denotes, h.rightSide_eq, rfl, lower_eq, upper_eq⟩

namespace Program

/-- There is a real number between the bounds of each variable. -/
def Bounded (P : Program m n) : Prop := ∀ j, ∃ t, Between (P.lower j) (P.upper j) t

/-- The lower bound of each multiplier, of which those of the equalities have none. -/
noncomputable def signBound (P : Program m n) (i : Fin m) : Extended :=
  if i < P.equalities then bot else .real 0

theorem exists_between_signBound (P : Program m n) (i : Fin m) :
    ∃ t, Between (P.signBound i) top t := by
  refine ⟨0, ?_, real_le_top 0⟩
  rw [signBound]
  split
  · exact bot_le_real 0
  · exact real_le_real.2 le_rfl

/-- The points within their bounds. -/
def box (P : Program m n) : Set (Fin n → ℝ) := {x | ∀ j, Between (P.lower j) (P.upper j) (x j)}

/-- The multipliers of which those of the inequalities are not negative. -/
def multipliers (P : Program m n) : Set (Fin m → ℝ) :=
  {y | ∀ i : Fin m, ¬ i < P.equalities → 0 ≤ y i}

theorem Bounded.nonempty_box {P : Program m n} (hP : P.Bounded) : P.box.Nonempty := by
  choose x hx using hP
  exact ⟨x, hx⟩

/-- They are those within the bounds of each multiplier. -/
theorem mem_multipliers {P : Program m n} {y : Fin m → ℝ} :
    y ∈ P.multipliers ↔ ∀ i, Between (P.signBound i) top (y i) := by
  refine forall_congr' fun i => ?_
  rw [signBound]
  split
  · rename_i hi
    exact iff_of_true (fun h => absurd hi h) ⟨bot_le_real _, real_le_top _⟩
  · rename_i hi
    exact ⟨fun h => ⟨real_le_real.2 (h hi), real_le_top _⟩, fun h _ => real_le_real.1 h.1⟩

end Program

/-- An accepted problem, in which no lower bound is infinitely large and no upper bound
    infinitely small, leaves a real number for each variable. -/
theorem Problem.Accepted.bounded {p : Problem Extended} (h : p.Accepted) (hl : .top ∉ p.lower)
    (hu : .bot ∉ p.upper) : p.program.Bounded := fun j =>
  exists_between (accepted_iff.1 h j) (fun heq => hl (heq ▸ Array.getElem_mem _))
    (fun heq => hu (heq ▸ Array.getElem_mem _))

theorem Problem.accepted_blend : blend.Accepted ∧ .top ∉ blend.lower ∧ .bot ∉ blend.upper := by
  refine ⟨accepted_iff.2 fun (j : Fin 2) => ?_, by simp [blend], by simp [blend]⟩
  fin_cases j
  · exact real_le_top 0
  · exact bot_le_real 1

/-! ### The step -/

namespace Program

variable (P : Program m n)

/-- The point after a step. -/
noncomputable def stepPrimal (t : ℝ) (z : Point m n) (j : Fin n) : ℝ :=
  nearest (P.lower j) (P.upper j) (z.1 j - t * P.reducedCost z.2 j)

/-- The multipliers after a step, which move by the excess at the extrapolated point. -/
noncomputable def stepDual (t : ℝ) (z : Point m n) (i : Fin m) : ℝ :=
  nearest (P.signBound i) top (z.2 i - t * P.excess ((2 : ℝ) • P.stepPrimal t z - z.1) i)

/-- The step. -/
noncomputable def step (t : ℝ) (z : Point m n) : Point m n := (P.stepPrimal t z, P.stepDual t z)

/-- Without an equality there, the positive part is what a multiplier is clamped to. -/
theorem clamp_signBound (i : Fin m) (y : ℝ) :
    (if (i : ℕ) < P.equalities then real y else Scalar.positivePart (real y)) =
      real (nearest (P.signBound i) top y) := by
  have htop : ¬ top < real y := id
  have hbot : ¬ real y < bot := id
  rw [signBound]
  split
  · rw [nearest, Scalar.clamp, if_neg hbot, if_neg htop, toReal_real]
  · rw [nearest, Scalar.clamp, Scalar.positivePart, zero_eq, if_neg htop]
    split
    · rfl
    · rfl

end Program

namespace Problem.Poses

variable {p : Problem Extended} {P : Program m n}

/-- A point is projected to the nearest one within the bounds. -/
theorem projectPrimal (h : p.Poses P) (hP : P.Bounded) (x : Fin n → ℝ) :
    p.projectPrimal (Vec.real x) = Vec.real fun j => nearest (P.lower j) (P.upper j) (x j) := by
  rw [Problem.projectPrimal, h.lower, h.upper, Array.zip, Vec.zipWith_ofFn, Vec.real,
    Vec.zipWith_ofFn]
  congr 1
  funext j
  exact clamp_real (hP j) _

/-- Multipliers are projected to the nearest ones from their bounds on. -/
theorem projectDual (h : p.Poses P) (y : Fin m → ℝ) :
    p.projectDual (Vec.real y) = Vec.real fun i => nearest (P.signBound i) top (y i) := by
  rw [Problem.projectDual, Vec.mapIdx_real, h.equalities, Vec.real]
  congr 1
  funext i
  exact P.clamp_signBound i _

theorem stepPrimal (h : p.Poses P) (hP : P.Bounded) (t : ℝ) (z : Point m n) :
    p.stepPrimal (.real t) (.real z) = Vec.real (P.stepPrimal t z) := by
  have hmove : p.matrix.transposeProduct (.real t) (Vec.real z.2) 1
      (Vec.add (-.real t) p.objective (Vec.real z.1)) =
        Vec.real fun j => z.1 j - t * P.reducedCost z.2 j := by
    rw [h.objective, neg_real, one_eq, Vec.add_real, h.matrix.transposeProduct]
    congr 1
    funext j
    simp only [Program.reducedCost, Pi.add_apply, Pi.smul_apply, Pi.sub_apply, smul_eq_mul]
    ring
  rw [Problem.stepPrimal, Iterate.real, hmove, h.projectPrimal hP]
  rfl

theorem stepDual (h : p.Poses P) (t : ℝ) (z : Point m n) :
    p.stepDual (.real t) (.real z) (Vec.real (P.stepPrimal t z)) =
      Vec.real (P.stepDual t z) := by
  have hextra : extrapolate (Vec.real z.1) (Vec.real (P.stepPrimal t z)) =
      Vec.real ((2 : ℝ) • P.stepPrimal t z - z.1) := by
    rw [extrapolate, one_eq, neg_real, add_real, Vec.scale_real, Vec.add_real, one_add_one_eq_two,
      neg_one_smul, sub_eq_add_neg]
  have hmove : Vec.add (.real t) p.rightSide (p.matrix.product (-.real t)
      (Vec.real ((2 : ℝ) • P.stepPrimal t z - z.1)) 1 (Vec.real z.2)) =
        Vec.real fun i => z.2 i - t * P.excess ((2 : ℝ) • P.stepPrimal t z - z.1) i := by
    rw [h.rightSide, neg_real, one_eq, h.matrix.product, Vec.add_real]
    congr 1
    funext i
    simp only [Program.excess, Pi.add_apply, Pi.smul_apply, Pi.sub_apply, smul_eq_mul]
    ring
  rw [Problem.stepDual, Iterate.real, hextra, hmove, h.projectDual]
  rfl

/-- The step of a problem is the one of the program that it poses. -/
theorem step (h : p.Poses P) (hP : P.Bounded) (t : ℝ) (z : Point m n) :
    p.step (.real t) (.real z) = .real (P.step t z) := by
  rw [Problem.step, h.stepPrimal hP, h.stepDual]
  rfl

end Problem.Poses

/-! ### Scaled programs -/

/-- The multiple of a bound by a positive factor. -/
def Extended.stretch (d : ℝ) : Extended → Extended
  | .real x => .real (d * x)
  | a => a

/-- Only the multiple of a bound gives it back when it is divided by the factor. -/
theorem Extended.eq_stretch_of_div {a b : Extended} {d : ℝ} (hd : 0 < d) (h : a / real d = b) :
    a = b.stretch d := by
  subst h
  cases a with
  | real x => rw [div_real _ hd.ne', stretch, mul_div_cancel₀ _ hd.ne']
  | top =>
    rw [show top / real d = top from if_neg (not_lt.2 hd.le)]
    rfl
  | bot =>
    rw [show bot / real d = bot from if_neg (not_lt.2 hd.le)]
    rfl
  | undefined => rfl

/-- A program with factors for its rows and columns. -/
noncomputable def Program.scaled (P : Program m n) (r : Fin m → ℝ) (v : Fin n → ℝ) :
    Program m n where
  cost := P.cost / v
  coeff := descale P.coeff r v
  rhs := P.rhs / r
  equalities := P.equalities
  lower j := (P.lower j).stretch (v j)
  upper j := (P.upper j).stretch (v j)
  equalities_le := P.equalities_le

namespace Extended

theorem le_stretch_iff {d : ℝ} (hd : 0 < d) {l : Extended} {t : ℝ} :
    l.stretch d ≤ real (d * t) ↔ l ≤ real t := by
  cases l with
  | real l => rw [stretch, real_le_real, real_le_real, mul_le_mul_iff_right₀ hd]
  | bot => exact iff_of_true (bot_le_real _) (bot_le_real _)
  | top => exact iff_of_false (not_top_le_real _) (not_top_le_real _)
  | undefined => exact iff_of_false (not_undefined_le _) (not_undefined_le _)

theorem stretch_le_iff {d : ℝ} (hd : 0 < d) {u : Extended} {t : ℝ} :
    real (d * t) ≤ u.stretch d ↔ real t ≤ u := by
  cases u with
  | real u => rw [stretch, real_le_real, real_le_real, mul_le_mul_iff_right₀ hd]
  | top => exact iff_of_true (real_le_top _) (real_le_top _)
  | bot => exact iff_of_false (not_real_le_bot _) (not_real_le_bot _)
  | undefined => exact iff_of_false (not_le_undefined _) (not_le_undefined _)

theorem between_stretch_iff {d : ℝ} (hd : 0 < d) {l u : Extended} {t : ℝ} :
    Between (l.stretch d) (u.stretch d) (d * t) ↔ Between l u t :=
  and_congr (le_stretch_iff hd) (stretch_le_iff hd)

end Extended

theorem Program.Bounded.scaled {P : Program m n} (h : P.Bounded) (r : Fin m → ℝ) {v : Fin n → ℝ}
    (hv : ∀ j, 0 < v j) : (P.scaled r v).Bounded := fun j =>
  (h j).imp' (v j * ·) fun _ => (between_stretch_iff (hv j)).2

namespace Scaled.Scales

variable {s : Scaled Extended} {P : Program m n} {r : Fin m → ℝ} {v : Fin n → ℝ}

theorem bound_eq (h : s.Scales P r v) {b : Vec Extended} {B : Fin n → Extended}
    (hb : s.unscalePrimal b = Array.ofFn B) (hs : b.size = n) :
    b = Array.ofFn fun j => (B j).stretch (v j) := by
  refine Array.ext (hs.trans Array.size_ofFn.symm) fun j hj hj' => ?_
  rw [Array.getElem_ofFn]
  refine eq_stretch_of_div (h.variable_pos _) ?_
  have hget := congrArg (fun w : Vec Extended => w[j]?) hb
  rw [Scaled.unscalePrimal, h.variableFactors] at hget
  have hjn : j < n := hs ▸ hj
  simpa [Vec.divide, hj, hjn] using hget

/-- A scaled problem poses the scaled program. -/
theorem poses (h : s.Scales P r v) : s.problem.Poses (P.scaled r v) where
  objective := h.objective
  matrix := h.matrix
  rightSide := h.rightSide
  equalities := h.equalities
  lower := h.bound_eq h.lower (s.problem.size_lower.trans h.matrix.cols)
  upper := h.bound_eq h.upper (s.problem.size_upper.trans h.matrix.cols)

end Scaled.Scales

/-! ### The iterates of a run -/

/-- The iterates of a run are those of the step of the program on which it works. -/
theorem Run.iterate_real {run : Run Extended} {P : Program m n} (h : run.scaled.problem.Poses P)
    (hP : P.Bounded) {t : ℝ} (ht : run.stepSize = .real t) (z : Point m n) (k : ℕ) :
    run.iterate (.real z) k = .real ((P.step t)^[k] z) := by
  induction k with
  | zero => rfl
  | succ k ih =>
    rw [iterate, ih, ht, h.step hP, Function.iterate_succ_apply']

end HybridGradient
