import HybridGradient.Proofs.EntryOrder
import HybridGradient.Proofs.Solutions

/-!
# Balancing leads to an equivalent program

In exact arithmetic, whatever the numbers of passes and the least factor are, the factors of a
balanced problem are positive real numbers, and nothing is gained or lost with them: the same
positions are stored, every datum is divided or multiplied by the factors of its lines, an
infinite bound stays infinite, and the points that satisfy all constraints, their costs and the
pairing of multipliers with constraints correspond to one another.

* `Problem.Satisfied`: a point satisfies all constraints and bounds, as the arithmetic sees it;
* `Scaled.Equivalent`: how the data of a scaled problem come from those of a problem, and
  what they have in common;
* `Scaled.exists_equivalent_balanced`: a balanced problem is equivalent to the given one.
-/

namespace HybridGradient

open Extended Matrix

variable {m n : ℕ}

/-! ### Points that satisfy a problem -/

/-- What holds of the components of two vectors at each place. -/
theorem Vec.forall_getElem?_ofFn {β γ : Type} {a : Fin n → β} {b : Fin n → γ}
    {Q : ℕ → β → γ → Prop} :
    (∀ (j : ℕ) (x : β) (y : γ), (Array.ofFn a)[j]? = some x → (Array.ofFn b)[j]? = some y →
      Q j x y) ↔ ∀ j : Fin n, Q j (a j) (b j) := by
  constructor
  · intro h j
    exact h j _ _ (by rw [Array.getElem?_ofFn, dif_pos j.2])
      (by rw [Array.getElem?_ofFn, dif_pos j.2])
  · intro h j x y hx hy
    rw [Array.getElem?_ofFn] at hx hy
    split at hx
    · rename_i hj
      rw [dif_pos hj] at hy
      rw [← Option.some.inj hx, ← Option.some.inj hy]
      exact h ⟨j, hj⟩
    · exact nomatch hx

/-- A point satisfies all constraints and lies within all bounds. -/
structure Problem.Satisfied (p : Problem Extended) (x : Vec Extended) : Prop where
  equality : ∀ (i : ℕ) (a b : Extended),
    (p.matrix.product 1 x 0 (Vec.zeros p.rows))[i]? = some a → p.rightSide[i]? = some b →
    i < p.equalities → a = b
  inequality : ∀ (i : ℕ) (a b : Extended),
    (p.matrix.product 1 x 0 (Vec.zeros p.rows))[i]? = some a → p.rightSide[i]? = some b →
    ¬ i < p.equalities → b ≤ a
  lower_le : ∀ (j : ℕ) (l a : Extended), p.lower[j]? = some l → x[j]? = some a → l ≤ a
  le_upper : ∀ (j : ℕ) (u a : Extended), p.upper[j]? = some u → x[j]? = some a → a ≤ u

/-- In real numbers, the points that satisfy a problem are the feasible ones of its program. -/
theorem Problem.Poses.satisfied_iff {p : Problem Extended} {P : Program m n} (h : p.Poses P)
    (x : Fin n → ℝ) : p.Satisfied (Vec.real x) ↔ P.Feasible x := by
  have hproduct : p.matrix.product 1 (Vec.real x) 0 (Vec.zeros p.rows) =
      Vec.real (P.coeff *ᵥ x) := by
    rw [Problem.rows, h.matrix.rows, Vec.zeros_eq, one_eq, zero_eq, h.matrix.product, zero_smul,
      zero_add, one_smul]
  constructor
  · rintro ⟨hequality, hinequality, hlower, hupper⟩
    rw [hproduct, h.rightSide, h.equalities] at hequality hinequality
    rw [h.lower] at hlower
    rw [h.upper] at hupper
    exact ⟨fun i hi => Extended.real_injective (Vec.forall_getElem?_ofFn.1 hequality i hi),
      fun i hi => real_le_real.1 (Vec.forall_getElem?_ofFn.1 hinequality i hi),
      Vec.forall_getElem?_ofFn.1 hlower, Vec.forall_getElem?_ofFn.1 hupper⟩
  · intro hx
    constructor
    · rw [hproduct, h.rightSide, h.equalities]
      exact Vec.forall_getElem?_ofFn.2 fun i hi => congrArg Extended.real (hx.equality i hi)
    · rw [hproduct, h.rightSide, h.equalities]
      exact Vec.forall_getElem?_ofFn.2 fun i hi => real_le_real.2 (hx.inequality i hi)
    · rw [h.lower]
      exact Vec.forall_getElem?_ofFn.2 hx.lower_le
    · rw [h.upper]
      exact Vec.forall_getElem?_ofFn.2 hx.le_upper

/-- The image of a point is feasible for the scaled program if and only if the point is for the
    program. -/
theorem Program.feasible_scaled_iff {P : Program m n} {r : Fin m → ℝ} {v : Fin n → ℝ}
    (hr : ∀ i, 0 < r i) (hv : ∀ j, 0 < v j) {x : Fin n → ℝ} :
    (P.scaled r v).Feasible (v * x) ↔ P.Feasible x := by
  have hrow (i : Fin m) : ((P.scaled r v).coeff *ᵥ (v * x)) i = (P.coeff *ᵥ x) i / r i := by
    rw [scaled, descale_mulVec _ _ hv, Pi.div_apply]
  have hrhs (i : Fin m) : (P.scaled r v).rhs i = P.rhs i / r i := rfl
  constructor
  · intro hx
    refine ⟨fun i hi => ?_, fun i hi => ?_, fun j => ?_, fun j => ?_⟩
    · have h := hx.equality i hi
      rwa [hrow, hrhs, div_left_inj' (hr i).ne'] at h
    · have h := hx.inequality i hi
      rwa [hrow, hrhs, div_le_div_iff_of_pos_right (hr i)] at h
    · exact (le_stretch_iff (hv j)).1 (hx.lower_le j)
    · exact (stretch_le_iff (hv j)).1 (hx.le_upper j)
  · intro hx
    refine ⟨fun i hi => ?_, fun i hi => ?_, fun j => ?_, fun j => ?_⟩
    · rw [hrow, hrhs, hx.equality i hi]
    · rw [hrow, hrhs, div_le_div_iff_of_pos_right (hr i)]
      exact hx.inequality i hi
    · exact (le_stretch_iff (hv j)).2 (hx.lower_le j)
    · exact (stretch_le_iff (hv j)).2 (hx.le_upper j)

/-! ### Images and preimages -/

/-- Scaling back by a positive factor and again leaves a value as it is. -/
theorem image_div {d : ℝ} (hd : 0 < d) (b : Extended) :
    1 * real d * (b / real d) + 0 * 0 = b := by
  have hone : (1 : Extended) * real d = real d := congrArg real (one_mul d)
  have hzero : (0 : Extended) * 0 = real 0 := congrArg real (mul_zero 0)
  have hsign : SignType.sign d = 1 := sign_pos hd
  rw [hone, hzero]
  cases b with
  | real x => rw [div_real _ hd.ne', mul_real, add_real, add_zero, mul_div_cancel₀ _ hd.ne']
  | top =>
    rw [show top / real d = top from if_neg (not_lt.2 hd.le),
      show real d * top = top from congrArg (fun s => infinite (s * 1)) hsign]
    rfl
  | bot =>
    rw [show bot / real d = bot from if_neg (not_lt.2 hd.le),
      show real d * bot = bot from congrArg (fun s => infinite (s * -1)) hsign]
    rfl
  | undefined =>
    rw [show undefined / real d = undefined from rfl,
      show real d * undefined = undefined from congrArg (fun s => infinite (s * 0)) hsign]
    rfl

theorem image_divide {d : Fin n → ℝ} (hd : ∀ j, 0 < d j) (b : Fin n → Extended) :
    Scaled.image (Vec.real d) (Vec.divide (Vec.real d) (Array.ofFn b)) = Array.ofFn b := by
  have hzeros : (Vec.zeros n : Vec Extended) = Array.ofFn fun _ : Fin n => 0 := Vec.zeros_eq n
  rw [Vec.divide, Vec.real, Vec.zipWith_ofFn, Scaled.image, Vec.addDiagonal, Array.size_ofFn,
    hzeros, Vec.zipWith_ofFn, Vec.zipWith_ofFn]
  congr 1
  funext j
  exact image_div (hd j) (b j)

/-- Images and preimages under positive factors, with infinities and what is no number. -/
theorem divide_image_and_image_divide {d : Fin n → ℝ} (hd : ∀ j, 0 < d j) {x : Vec Extended}
    (hx : x.size = n) :
    Vec.divide (Vec.real d) (Scaled.image (Vec.real d) x) = x ∧
      Scaled.image (Vec.real d) (Vec.divide (Vec.real d) x) = x := by
  obtain ⟨b, rfl⟩ : ∃ b : Fin n → Extended, x = Array.ofFn b :=
    ⟨fun j => x[j], Array.ext (by simp [hx]) fun j hj hj' => by simp⟩
  exact ⟨divide_image hd _, image_divide hd _⟩

/-- Two operations with checked lengths, of which the second one cancels the first. -/
theorem Fault.bind_cancel {f g : Vec Extended → Vec Extended} {k : ℕ} {x : Vec Extended}
    (hx : x.size = k) (hf : (f x).size = k) (h : g (f x) = x) :
    ((do checkLength k x.size; return f x : Except Fault (Vec Extended)) >>= fun y => do
      checkLength k y.size; return g y) = .ok x := by
  rw [hx, checkLength_self, ok_bind]
  change (checkLength k (f x).size >>= fun _ => pure (g (f x))) = _
  rw [hf, checkLength_self, h]
  rfl

/-! ### Equivalent problems -/

/-- An entry within a shape, divided by the factors of its row and its column. -/
noncomputable def Entry.descale (e : Entry Extended) (r : Fin m → ℝ) (v : Fin n → ℝ)
    (h : e.row < m ∧ e.col < n) : Entry Extended :=
  e.withValue (.real (e.value.toReal / (r ⟨e.row, h.1⟩ * v ⟨e.col, h.2⟩)))

namespace Scaled

/-- A scaled problem is equivalent to a problem, by positive factors of its constraints and its
    variables. -/
structure Equivalent (s : Scaled Extended) (p : Problem Extended) (r : Fin p.rows → ℝ)
    (v : Fin p.cols → ℝ) : Prop where
  /-- The factors are positive real numbers. -/
  constraint_pos : ∀ i, 0 < r i
  variable_pos : ∀ j, 0 < v j
  constraintFactors : s.constraintFactors = Vec.real r
  variableFactors : s.variableFactors = Vec.real v
  /-- The shape and the number of equalities stay the same. -/
  rows : s.problem.rows = p.rows
  cols : s.problem.cols = p.cols
  equalities : s.problem.equalities = p.equalities
  /-- The same positions are stored, with the values divided by both factors. -/
  entries : s.problem.matrix.entries.Perm
    (p.matrix.entries.pmap (fun e h => e.descale r v h) p.matrix.inBounds)
  /-- Costs and right-hand sides are divided by the factors. -/
  objective : s.problem.objective = Vec.real fun j => p.program.cost j / v j
  rightSide : s.problem.rightSide = Vec.real fun i => p.program.rhs i / r i
  /-- Bounds are multiplied by the factors, and infinite ones are kept. -/
  lower : s.problem.lower = Array.ofFn fun j => (p.program.lower j).stretch (v j)
  upper : s.problem.upper = Array.ofFn fun j => (p.program.upper j).stretch (v j)
  /-- Scaling and scaling back cancel, in either order. -/
  unscalePrimal : ∀ x : Vec Extended, x.size = p.cols →
    (s.scalePrimal? x >>= s.unscalePrimal?) = .ok x ∧
      (s.unscalePrimal? x >>= s.scalePrimal?) = .ok x
  unscaleDual : ∀ y : Vec Extended, y.size = p.rows →
    (s.scaleDual? y >>= s.unscaleDual?) = .ok y ∧ (s.unscaleDual? y >>= s.scaleDual?) = .ok y
  /-- The image of a point satisfies all constraints and bounds if and only if the point does. -/
  satisfied_iff : ∀ x : Fin p.cols → ℝ,
    s.problem.Satisfied (s.scalePrimal (Vec.real x)) ↔ p.Satisfied (Vec.real x)
  /-- The cost of the image of a point is that of the point. -/
  cost : ∀ x : Fin p.cols → ℝ, s.problem.cost? (s.scalePrimal (Vec.real x)) =
    p.cost? (Vec.real x) ∧ p.cost? (Vec.real x) = .ok (.real (p.program.cost ⬝ᵥ x))
  /-- The images of multipliers pair with the scaled constraints as the multipliers with
      the constraints. -/
  pairing : ∀ (x : Fin p.cols → ℝ) (y : Fin p.rows → ℝ),
    Vec.inner (s.scaleDual (Vec.real y)) (s.problem.matrix.product 1
        (s.scalePrimal (Vec.real x)) (-1) s.problem.rightSide) =
      Vec.inner (Vec.real y) (p.matrix.product 1 (Vec.real x) (-1) p.rightSide)

variable {s : Scaled Extended} {p : Problem Extended} {r : Fin p.rows → ℝ} {v : Fin p.cols → ℝ}

/-- A problem scaled by positive factors is equivalent to it, if its entries are those of the
    problem, divided by the factors. -/
theorem Scales.equivalent (h : s.Scales p.program r v) (hp : p.IsFinite)
    (hentries : s.problem.matrix.entries.Perm
      (p.matrix.entries.pmap (fun e h => e.descale r v h) p.matrix.inBounds)) :
    s.Equivalent p r v where
  constraint_pos := h.constraint_pos
  variable_pos := h.variable_pos
  constraintFactors := h.constraintFactors
  variableFactors := h.variableFactors
  rows := h.matrix.rows
  cols := h.matrix.cols
  equalities := h.equalities
  entries := hentries
  objective := h.objective
  rightSide := h.rightSide
  lower := h.poses.lower
  upper := h.poses.upper
  unscalePrimal x hx := by
    have hsize : x.size = s.variableFactors.size := by rw [h.variableFactors, Vec.size_real, hx]
    obtain ⟨hback, hforth⟩ := divide_image_and_image_divide h.variable_pos hx
    rw [← h.variableFactors] at hback hforth
    exact ⟨Fault.bind_cancel hsize (by rw [Scaled.scalePrimal, size_image, hsize, min_self]) hback,
      Fault.bind_cancel hsize (by rw [Scaled.unscalePrimal, Vec.size_divide, hsize, min_self])
        hforth⟩
  unscaleDual y hy := by
    have hsize : y.size = s.constraintFactors.size := by
      rw [h.constraintFactors, Vec.size_real, hy]
    obtain ⟨hback, hforth⟩ := divide_image_and_image_divide h.constraint_pos hy
    rw [← h.constraintFactors] at hback hforth
    exact ⟨Fault.bind_cancel hsize (by rw [Scaled.scaleDual, size_image, hsize, min_self]) hback,
      Fault.bind_cancel hsize (by rw [Scaled.unscaleDual, Vec.size_divide, hsize, min_self])
        hforth⟩
  satisfied_iff x := by
    rw [h.scalePrimal, h.poses.satisfied_iff, hp.poses.satisfied_iff,
      Program.feasible_scaled_iff h.constraint_pos h.variable_pos]
  cost x := by
    have hcost {q : Problem Extended} {P : Program p.rows p.cols} (hq : q.Poses P)
        (x : Fin p.cols → ℝ) : q.cost? (Vec.real x) = .ok (.real (P.cost ⬝ᵥ x)) := by
      rw [Problem.cost?, Vec.inner?, hq.objective, Vec.size_real, Vec.size_real,
        Fault.checkLength_self, Vec.inner_real]
      rfl
    have hscaled := hcost h.poses (v * x)
    rw [Program.scaled, div_dotProduct_mul h.variable_pos] at hscaled
    rw [h.scalePrimal, hscaled, hcost hp.poses]
    exact ⟨rfl, rfl⟩
  pairing x y := by
    have hproduct {q : Problem Extended} {P : Program p.rows p.cols} (hq : q.Poses P)
        (x : Fin p.cols → ℝ) :
        q.matrix.product 1 (Vec.real x) (-1) q.rightSide = Vec.real (P.excess x) := by
      rw [one_eq, neg_real, hq.rightSide, hq.matrix.product, one_smul, neg_one_smul,
        neg_add_eq_sub, Program.excess]
    rw [h.scalePrimal, h.scaleDual, hproduct h.poses, hproduct hp.poses,
      Program.excess_scaled r h.variable_pos, Vec.inner_real, Vec.inner_real, dotProduct_comm,
      div_dotProduct_mul h.constraint_pos, dotProduct_comm]

/-- The entries of a balanced problem are those of the problem, divided by both factors. -/
theorem entries_ofFactors (hp : p.IsFinite) {f : Factors Extended} (hf : f.Positive r v)
    (hr : f.rows.size = p.matrix.rows) (hc : f.cols.size = p.matrix.cols) :
    (ofFactors p f hr hc).problem.matrix.entries.Perm
      (p.matrix.entries.pmap (fun e h => e.descale r v h) p.matrix.inBounds) := by
  have hmap : p.matrix.entries.map (fun e => e.withValue (f.scaledValue e)) =
      p.matrix.entries.pmap (fun e h => e.descale r v h) p.matrix.inBounds := by
    rw [← List.pmap_eq_map (p := fun e => e.row < p.rows ∧ e.col < p.cols) p.matrix.inBounds]
    exact List.pmap_congr_left _ fun e he _ _ =>
      congrArg e.withValue (hf.scaledValue (hp.denotes.entry he))
  rw [← hmap]
  exact (p.matrix.reorder_perm .byColumn).map _

/-- The entries of a problem as it is, divided by ones. -/
theorem entries_identity (hp : p.IsFinite) : (identity p).problem.matrix.entries =
    p.matrix.entries.pmap (fun e h => e.descale (m := p.rows) (n := p.cols) 1 1 h)
      p.matrix.inBounds := by
  have hmap : p.matrix.entries.map id =
      p.matrix.entries.pmap (fun e h => e.descale (m := p.rows) (n := p.cols) 1 1 h)
        p.matrix.inBounds := by
    rw [← List.pmap_eq_map (p := fun e => e.row < p.rows ∧ e.col < p.cols) p.matrix.inBounds]
    refine List.pmap_congr_left _ fun e he _ _ => ?_
    change e.withValue e.value = e.withValue (.real (e.value.toReal / (1 * 1)))
    rw [mul_one, div_one, ← eq_real_toReal (hp.matrix e he)]
  rw [← hmap, List.map_id]
  rfl

/-- A balanced problem with finite data is equivalent to the problem, for all numbers of passes
    and every least factor. -/
theorem exists_equivalent_balanced (hp : p.IsFinite) (means largests : ℕ) (least : ℝ) :
    ∃ r v, (balanced p means largests (.real least)).Equivalent p r v := by
  rw [balanced]
  split
  · exact ⟨1, 1, (scales_identity hp).equivalent hp (.of_eq (entries_identity hp))⟩
  · obtain ⟨r, v, h⟩ := Factors.exists_positive_balancing (A := p.matrix) (m := p.rows)
      (n := p.cols) rfl rfl means largests least
    exact ⟨r, v, (scales_ofFactors hp h _ _).equivalent hp (entries_ofFactors hp h _ _)⟩

/-- The small problem, balanced with a negative least factor. -/
theorem exists_equivalent_blend :
    ∃ r v : Fin 2 → ℝ, (balanced .blend 10 4 (.real (-1))).Equivalent .blend r v :=
  exists_equivalent_balanced Problem.isFinite_blend 10 4 (-1)

end Scaled

end HybridGradient
