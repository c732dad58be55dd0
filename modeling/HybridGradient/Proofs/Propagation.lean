import HybridGradient.Proofs.Absorption
import HybridGradient.Proofs.Run

/-!
# What is no number is never hidden

A component of an iterate that is no number is handed on by every step: what is added to it
changes nothing, and the projections, which compare, leave it where it is. It is still there
when the iterate is mapped back, and the error of the iterate is no number, either. Such an
error is within no tolerance, not even an infinite one. An infinite component is not handed on
in this way, since a projection may bring it back to a bound, but the error of the
iterate that has it is infinite or no number.

* `Problem.step_at`, `Run.iterate_at`: what one step keeps, and what a run keeps;
* `Scaled.value_error_of_not_finite`: the error of an iterate with a component that is not
  finite;
* `solve?_exposes`: both, for all runs.
-/

namespace HybridGradient

open Extended Binary Rounding

/-- A component of an iterate has a property, `.inl j` being that of the `j`-th variable
    and `.inr i` the multiplier of the `i`-th constraint. -/
def Iterate.At {α : Type} (P : α → Prop) (z : Iterate α) : ℕ ⊕ ℕ → Prop
  | .inl j => Vec.At P z.primal j
  | .inr i => Vec.At P z.dual i

variable {α : Type} [Scalar α] [Binary α] [SignedBinary α]

/-! ### One step -/

namespace Problem

variable (p : Problem α) {t : α} {z : Iterate α} {c : ℕ ⊕ ℕ}

theorem projectPrimal_at {x : Vec α} {j : ℕ} (hx : x.size = p.cols)
    (h : Vec.At IsUndefined x j) : Vec.At IsUndefined (p.projectPrimal x) j := by
  refine h.zipWith_left ?_ fun v b hv => hv.clamp b.1 b.2
  have hj := h.1
  rw [Array.size_zip, p.size_lower, p.size_upper, Nat.min_self]
  rwa [hx] at hj

theorem projectDual_at {y : Vec α} {i : ℕ} (h : Vec.At IsUndefined y i) :
    Vec.At IsUndefined (p.projectDual y) i := by
  refine h.mapIdx fun i v hv => ?_
  split
  · exact hv
  · exact hv.positivePart

theorem stepPrimal_at {j : ℕ} (hz : z.primal.size = p.cols)
    (h : Vec.At IsUndefined z.primal j) : Vec.At IsUndefined (p.stepPrimal t z) j := by
  have hj : j < p.objective.size := by
    have hlt := h.1
    rwa [hz, cols, ← p.size_objective] at hlt
  refine p.projectPrimal_at ?_ ?_
  · rw [SparseMatrix.size_transposeProduct, Vec.size_add, p.size_objective, hz, cols, Nat.min_self]
  · exact absorbing_undefined.accumulate_at _ _ _ _ _
      (absorbing_undefined.preset_at one_beq_zero (absorbing_undefined.add_at h _ hj))

theorem stepDual_at {i : ℕ} {new : Vec α} (hz : z.dual.size = p.rows)
    (h : Vec.At IsUndefined z.dual i) : Vec.At IsUndefined (p.stepDual t z new) i := by
  have hi : i < p.rightSide.size := by
    have hlt := h.1
    rwa [hz, rows, ← p.size_rightSide] at hlt
  refine p.projectDual_at (absorbing_undefined.add_at ?_ _ hi)
  exact absorbing_undefined.accumulate_at _ _ _ _ _ (absorbing_undefined.preset_at one_beq_zero h)

/-- A component that is no number is none after a step, either. -/
theorem step_at (hz : z.Fits p.rows p.cols) (h : z.At IsUndefined c) :
    (p.step t z).At IsUndefined c := by
  cases c with
  | inl j => exact p.stepPrimal_at hz.primal h
  | inr i => exact p.stepDual_at hz.dual h

end Problem

/-! ### Examinations -/

namespace Scaled

variable {s : Scaled α} {z move : Iterate α} {c : ℕ ⊕ ℕ} {iteration : ℕ} {passes elapsed : Float}

omit [Binary α] [SignedBinary α] in
/-- A property that is handed on goes from a component of an iterate to its error. -/
theorem error_of_at {Bad : α → Prop} (hBad : Absorbing Bad)
    (hz : z.Fits s.problem.rows s.problem.cols) (h : z.At Bad c) :
    Bad (s.evaluate z move iteration passes elapsed).error := by
  cases c with
  | inl j => exact hBad.error_of_primal hz.primal (.inl h)
  | inr i => exact hBad.error_of_dual hz.dual (.inl h)

/-- The error of an iterate with a component that is not finite is infinite or no number,
    whatever the factors are. -/
theorem value_error_of_not_finite (hz : z.Fits s.problem.rows s.problem.cols)
    (h : z.At (fun x => Scalar.isFinite x = false) c) :
    value (s.evaluate z move iteration passes elapsed).error = .top ∨
      IsUndefined (s.evaluate z move iteration passes elapsed).error := by
  rcases isFinite_eq_false_iff.1 (error_of_at absorbing_not_finite hz h) with h | h | h
  · exact .inl h
  · exact absurd h (value_sqrt_ne_bot _)
  · exact .inr h

/-- What is infinite or no number is within no finite tolerance. -/
theorem not_error_le (hz : z.Fits s.problem.rows s.problem.cols)
    (h : z.At (fun x => Scalar.isFinite x = false) c) {tolerance : α}
    (htol : Scalar.isFinite tolerance = true) :
    ¬ (s.evaluate z move iteration passes elapsed).error ≤ tolerance := by
  intro hle
  have hfinite := isFinite_of_sqrt_le htol hle
  have hbad : Scalar.isFinite (s.evaluate z move iteration passes elapsed).error = false :=
    error_of_at absorbing_not_finite hz h
  exact Bool.false_ne_true (hbad.symm.trans hfinite)

/-- What is no number of a vector is none of its image. -/
theorem image_at {factors x : Vec α} {j : ℕ} (hj : j < factors.size) (h : Vec.At IsUndefined x j) :
    Vec.At IsUndefined (image factors x) j := by
  have hprod := h.zipWith_right (R := IsUndefined) hj fun a u hu =>
    absorbing_undefined.mul (x := 1 * a) (.inr hu)
  refine hprod.zipWith_left ?_ fun b v hb => absorbing_undefined.add (.inl hb)
  rw [Vec.size_zeros]
  exact h.1

/-- The components of an iterate that is mapped back are no numbers where its own are none. -/
theorem unscale_at (hs : s.Fits) (hz : z.Fits s.problem.rows s.problem.cols)
    (h : z.At IsUndefined c) :
    (⟨s.unscalePrimal z.primal, s.unscaleDual z.dual⟩ : Iterate α).At IsUndefined c := by
  cases c with
  | inl j =>
    refine Vec.At.zipWith_left (P := IsUndefined) h ?_ fun x d hx => hx.div d
    rw [hs.variableFactors, ← hz.primal]
    exact h.1
  | inr i =>
    refine Vec.At.zipWith_left (P := IsUndefined) h ?_ fun x d hx => hx.div d
    rw [hs.constraintFactors, ← hz.dual]
    exact h.1

end Scaled

/-! ### Runs -/

namespace Run

variable {run : Run α} {z : Iterate α} {c : ℕ ⊕ ℕ} {i k : ℕ}

/-- A component that is no number is none in any later iterate. -/
theorem iterate_at (hz : z.Fits run.scaled.problem.rows run.scaled.problem.cols) (hik : i ≤ k)
    (h : (run.iterate z i).At IsUndefined c) : (run.iterate z k).At IsUndefined c := by
  induction k, hik using Nat.le_induction with
  | base => exact h
  | succ k hik ih => exact Problem.step_at _ (fits_iterate hz k) ih

theorem statusAt_of_undefined (h : IsUndefined (run.record z k).error) :
    run.statusAt z k = .iterationLimit :=
  (statusAt_eq_iterationLimit_iff k).2 (h.not_le _)

/-- A component that is no number shows in every later iterate, in what this is mapped back to,
    and in its error, and a run that ends there has not found a solution. -/
theorem exposes_undefined (hs : run.scaled.Fits)
    (hz : z.Fits run.scaled.problem.rows run.scaled.problem.cols) (hik : i ≤ k)
    (h : (run.iterate z i).At IsUndefined c) :
    (run.iterate z k).At IsUndefined c ∧ (run.original z k).At IsUndefined c ∧
      IsUndefined (run.record z k).error ∧ run.statusAt z k = .iterationLimit := by
  have hk := iterate_at hz hik h
  have hfits := fits_iterate hz k
  have herror : IsUndefined (run.record z k).error :=
    Scaled.error_of_at absorbing_undefined hfits hk
  exact ⟨hk, Scaled.unscale_at hs hfits hk, herror, statusAt_of_undefined herror⟩

end Run

/-- What is no number is never hidden, and what is infinite is not taken for a solution.

    A component of an iterate that is no number is none in all later iterates and in
    the solution, the errors of all these iterates are no numbers, and the run ends at its
    limit, whatever its tolerance is. An iterate with a component that is infinite or no
    number has an error that is infinite or no number, for any factors, and with a finite
    tolerance a run does not find it to be optimal. -/
theorem solve?_exposes (α : Type) [Scalar α] [Binary α] [SignedBinary α] :
    (∀ (run : Run α) (z : Iterate α) (c : ℕ ⊕ ℕ) (i k : ℕ), run.scaled.Fits →
      z.Fits run.scaled.problem.rows run.scaled.problem.cols → i ≤ k →
      (run.iterate z i).At IsUndefined c →
        (run.iterate z k).At IsUndefined c ∧ (run.original z k).At IsUndefined c ∧
          IsUndefined (run.record z k).error ∧ run.statusAt z k = .iterationLimit) ∧
    (∀ (s : Scaled α) (z move : Iterate α) (c : ℕ ⊕ ℕ) (iteration : ℕ) (passes elapsed : Float),
      z.Fits s.problem.rows s.problem.cols → z.At (fun x => Scalar.isFinite x = false) c →
        (value (s.evaluate z move iteration passes elapsed).error = .top ∨
          IsUndefined (s.evaluate z move iteration passes elapsed).error) ∧
        ∀ tolerance, Scalar.isFinite tolerance = true →
          ¬ (s.evaluate z move iteration passes elapsed).error ≤ tolerance) ∧
    ∀ (clock : ℕ → Float) (p : Problem α) (par : Params α), par.error? p.rows p.cols = none →
      ∃ k sol events, IsLeast {i | (par.run clock p).Stops (par.start p) i} k ∧
        solve? clock p par = .ok ⟨.ok sol, events⟩ ∧
        (∀ c, ∀ i ≤ k, ((par.run clock p).iterate (par.start p) i).At IsUndefined c →
          (⟨sol.primal, sol.dual⟩ : Iterate α).At IsUndefined c ∧
          (∀ r ∈ sol.table.records.toList, i ≤ r.iteration → IsUndefined r.error) ∧
          sol.status = .iterationLimit) ∧
        (∀ c, Scalar.isFinite par.tolerance = true →
          ((par.run clock p).iterate (par.start p) k).At (fun x => Scalar.isFinite x = false) c →
          sol.status = .iterationLimit) := by
  refine ⟨fun run z c i k hs hz hik h => Run.exposes_undefined hs hz hik h,
    fun s z move c iteration passes elapsed hz h =>
      ⟨Scaled.value_error_of_not_finite hz h, fun _ htol => Scaled.not_error_le hz h htol⟩,
    fun clock p par hpar => ?_⟩
  obtain ⟨k, last, hk, hlast, -, events, hsolve⟩ := solve?_eq clock hpar
  have hsound := (Params.accepted_of_error?_eq_none hpar).sound clock
  refine ⟨k, _, events, hk, hsolve, fun c i hik h => ?_, fun c htol h => ?_⟩
  · obtain ⟨-, horiginal, -, hstatus⟩ :=
      Run.exposes_undefined hsound.scaled hsound.start hik h
    refine ⟨?_, fun r hr hir => ?_, hstatus⟩
    · rw [Run.original, ← hlast.iterate] at horiginal
      exact horiginal
    · -- A record of the table is the one of its iteration.
      rw [hlast.records] at hr
      obtain ⟨i', -, rfl⟩ := List.mem_map.1 hr
      exact (Run.exposes_undefined hsound.scaled hsound.start hir h).2.2.1
  · exact (Run.statusAt_eq_iterationLimit_iff k).2
      (Scaled.not_error_le (Run.fits_iterate hsound.start k) h htol)

/-- Zero by zero is no number. -/
theorem Binary.isUndefined_zero_div_zero : IsUndefined (0 / 0 : α) := by
  rw [isUndefined_iff, LawfulBinary.unpack_div, LawfulBinary.unpack_zero]
  exact stored_notANumber

/-- Parameters with which a run starts at what is no number and nothing exceeds the tolerance. -/
def Params.undefinedStart (α : Type) [Scalar α] : Params α :=
  { (default : Params α) with
    stepSize := some 1, tolerance := Scalar.infinity, startPrimal := some #[0 / 0] }

theorem Params.accepted_undefinedStart : (undefinedStart α).Accepted 1 1 where
  recordEvery := show (1 : UInt64) ≠ 0 by decide
  printEvery := show (1 : UInt64) ≠ 0 by decide
  tolerance := pos_iff.2 (.inr value_infinity)
  stepSize t ht := by
    cases ht
    exact isPositive_one.pos
  startPrimal x hx := by
    cases hx
    rfl
  startDual := nofun

theorem Params.start_undefinedStart :
    ((undefinedStart α).start (Problem.single α)).At IsUndefined (.inl 0) := by
  refine Scaled.image_at (x := #[0 / 0]) ?_ ⟨Nat.one_pos, isUndefined_zero_div_zero⟩
  rw [((undefinedStart α).fits_scaled _).variableFactors, ((undefinedStart α).shape_scaled _).2]
  exact Nat.one_pos

/-- The run on the single program that starts at what is no number keeps it, returns it and is
    not found to be optimal, and a point at infinity is not, either. -/
theorem exposes_single :
    ((∃ sol events, solve? (fun _ => 0) (Problem.single Float) (.undefinedStart Float) =
          .ok ⟨.ok sol, events⟩ ∧
        Vec.At IsUndefined sol.primal 0 ∧ sol.status = .iterationLimit) ∧
      (((Params.undefinedStart Float).run (fun _ => 0) (Problem.single Float)).iterate
        ((Params.undefinedStart Float).start (Problem.single Float)) 2).At IsUndefined (.inl 0) ∧
      ¬ ((Scaled.identity (Problem.single Float)).evaluate ⟨#[Scalar.infinity], #[0]⟩
        (.zeros 1 1) 0 0 0).error ≤ 1) ∧
    (∃ sol events, solve? (fun _ => 0) (Problem.single Float32) (.undefinedStart Float32) =
          .ok ⟨.ok sol, events⟩ ∧
        Vec.At IsUndefined sol.primal 0 ∧ sol.status = .iterationLimit) ∧
      (((Params.undefinedStart Float32).run (fun _ => 0) (Problem.single Float32)).iterate
        ((Params.undefinedStart Float32).start (Problem.single Float32)) 2).At
          IsUndefined (.inl 0) ∧
      ¬ ((Scaled.identity (Problem.single Float32)).evaluate ⟨#[Scalar.infinity], #[0]⟩
        (.zeros 1 1) 0 0 0).error ≤ 1 := by
  have key (β : Type) [Scalar β] [Binary β] [SignedBinary β] :
      (∃ sol events, solve? (fun _ => 0) (Problem.single β) (.undefinedStart β) =
          .ok ⟨.ok sol, events⟩ ∧
        Vec.At IsUndefined sol.primal 0 ∧ sol.status = .iterationLimit) ∧
      (((Params.undefinedStart β).run (fun _ => 0) (Problem.single β)).iterate
        ((Params.undefinedStart β).start (Problem.single β)) 2).At IsUndefined (.inl 0) ∧
      ¬ ((Scaled.identity (Problem.single β)).evaluate ⟨#[Scalar.infinity], #[0]⟩
        (.zeros 1 1) 0 0 0).error ≤ 1 := by
    obtain ⟨hrun, herror, hsolve⟩ := solve?_exposes β
    have hacc : (Params.undefinedStart β).Accepted 1 1 := Params.accepted_undefinedStart
    have hstart := Params.start_undefinedStart (α := β)
    refine ⟨?_, ?_, ?_⟩
    · obtain ⟨k, sol, events, -, hsol, hundefined, -⟩ :=
        hsolve (fun _ => 0) (Problem.single β) (.undefinedStart β) hacc.error?_eq_none
      obtain ⟨hprimal, -, hstatus⟩ := hundefined (.inl 0) 0 (Nat.zero_le k) hstart
      exact ⟨sol, events, hsol, hprimal, hstatus⟩
    · have hsound := Params.Accepted.sound (p := Problem.single β) hacc (fun _ => 0)
      exact (hrun _ _ (.inl 0) 0 2 hsound.scaled hsound.start (Nat.zero_le 2) hstart).1
    · exact (herror (.identity (Problem.single β)) ⟨#[Scalar.infinity], #[0]⟩ (.zeros 1 1) (.inl 0)
        0 0 0 ⟨rfl, rfl⟩ ⟨Nat.one_pos, isFinite_eq_false_iff.2 (.inl value_infinity)⟩).2 1
          (isFinite_iff.2 ⟨1, value_one⟩)
  exact ⟨key Float, key Float32⟩

end HybridGradient
