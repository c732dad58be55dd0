import HybridGradient.Proofs.Binary64
import HybridGradient.Proofs.Run
import HybridGradient.Scalar.Binary

/-!
# What a run records, and when it ends

The result of a run in terms of the steps that it takes: which of its iterates are
recorded, with which one it ends, how often it steps, and what it counts as work.
Nothing is asked of the arithmetic.

* `solve?_schedule`: the whole of it, for parameters that are accepted.
-/

namespace HybridGradient

open Binary64

/-! ### The work -/

theorem Run.holds_work {i : Nat} (hi : 0 < i) (hi' : i ≤ 2 ^ 53) :
    ∃ (m : Nat) (e : Int) (h : IsNormal m e), Holds (work i) h ∧ (m : ℝ) * 2 ^ e = 2 * i := by
  have htwo : Holds passesPerStep (isNormal_twoPow (-51) (by decide) (by decide)) :=
    .of_eq_pack (by decide +kernel)
  induction i with
  | zero => exact absurd hi (lt_irrefl 0)
  | succ i ih =>
    rcases Nat.eq_zero_or_pos i with rfl | hpos
    · have hone : Holds (work 1) (isNormal_twoPow (-51) (by decide) (by decide)) :=
        .of_eq_pack (by decide +kernel)
      exact ⟨_, _, _, hone, by norm_num⟩
    · -- The sum is twice a number up to the 53rd power of two, so it needs no rounding.
      obtain ⟨m, e, h, hwork, hv⟩ := ih hpos (Nat.le_of_succ_le hi')
      obtain ⟨m', e', h', hv', hmin, hmax⟩ := exists_isNormal (Nat.succ_pos i) hi'
      have h'' : IsNormal m' (e' + 1) :=
        ⟨h'.le_significand, h'.significand_lt, by omega, by omega⟩
      have hdouble : (m' : ℝ) * 2 ^ (e' + 1) = 2 * (i + 1 : Nat) := by
        rw [zpow_add_one₀ two_ne_zero, ← mul_assoc, hv', mul_comm]
      refine ⟨m', e' + 1, h'', hwork.add htwo h'' (add_exact _ _ _ ?_), hdouble⟩
      rw [hdouble, hv]
      norm_num
      ring

/-- The work of up to the 53rd power of two steps is counted exactly. -/
theorem Run.ofBinary64_work {i : Nat} (hi : i ≤ 2 ^ 53) :
    Extended.ofBinary64 (work i) = .real (2 * i) := by
  rcases Nat.eq_zero_or_pos i with rfl | hpos
  · have hzero : Extended.ofBinary64 (work 0) = .real 0 := rfl
    simpa using hzero
  · obtain ⟨m, e, h, hwork, hv⟩ := Run.holds_work hpos hi
    rw [hwork.ofBinary64, hv]

/-! ### The whole run -/

variable {α : Type} [Scalar α] {p : Problem α} {par : Params α}

/-- A run with accepted parameters ends with the first iterate that is at the limit, or
    that is due for a record and has an error within the tolerance. It returns this
    iterate in the space of the given problem. Its table holds the iterates up to there
    that are due or at the limit, in their order, and nothing else. The run is optimal
    if and only if the error of the last iterate is within the tolerance. With the
    stepper counted, the loop comes to the same result, by one call for each iterate
    before the last one. The work is counted exactly up to the 53rd power of two steps. -/
theorem solve?_schedule (clock : Nat → Float) (h : par.error? p.rows p.cols = none) :
    ∃ k sol events, solve? clock p par = .ok ⟨.ok sol, events⟩ ∧
      IsLeast {i | i = par.iterationLimit.toNat ∨ par.recordEvery.toNat ∣ i ∧
        ((par.run clock p).record (par.start p) i).error ≤ par.tolerance} k ∧
      k ≤ par.iterationLimit.toNat ∧
      sol.primal = (par.scaled p).1.unscalePrimal
        ((par.run clock p).iterate (par.start p) k).primal ∧
      sol.dual = (par.scaled p).1.unscaleDual ((par.run clock p).iterate (par.start p) k).dual ∧
      sol.table.records.toList = ((List.range (k + 1)).filter fun i =>
        par.recordEvery.toNat ∣ i ∨ i = par.iterationLimit.toNat).map
          ((par.run clock p).record (par.start p)) ∧
      (sol.status = .optimal ↔
        ((par.run clock p).record (par.start p) k).error ≤ par.tolerance) ∧
      (sol.status = .iterationLimit ↔
        ¬ ((par.run clock p).record (par.start p) k).error ≤ par.tolerance) ∧
      (∃ last, ((par.run clock p).loopBy? (Run.counted (par.run clock p).stepper?)
          par.iterationLimit.toNat (.start p.rows p.cols (par.start p))).run 0 =
            .ok ((last, sol.status), k) ∧
        (par.run clock p).loop? par.iterationLimit.toNat
          (.start p.rows p.cols (par.start p)) = .ok (last, sol.status) ∧
        sol.table = last.table) ∧
      ∀ i ≤ 2 ^ 53, Extended.ofBinary64 (Run.work i) = .real (2 * i) := by
  obtain ⟨k, last, hk, hlast, hcount, events, hsolve⟩ := solve?_eq clock h
  refine ⟨k, _, events, hsolve, hk, hk.2 (.inl rfl), by rw [hlast.iterate], by rw [hlast.iterate],
    hlast.records, Run.statusAt_eq_optimal_iff k, Run.statusAt_eq_iterationLimit_iff k,
    ⟨last, hcount, ?_, rfl⟩, fun i => Run.ofBinary64_work⟩
  rw [Run.loop?, ← Run.map_fst_loopBy?_counted (par.run clock p).stepper? _ _ 0, hcount]
  rfl

/-- A run in binary64 that takes all steps up to its limit, which the period of its records does
    not divide. -/
theorem exists_solve?_single :
    ∃ par : Params Float, par.tolerance = 1e-6 ∧ par.recordEvery = 3 ∧ par.iterationLimit = 5 ∧
      ∃ sol events, solve? (fun _ => 0) (.single Float) par = .ok ⟨.ok sol, events⟩ ∧
        sol.status = .iterationLimit ∧
        sol.table.records.toList.map Record.iteration = [0, 3, 5] := by
  let p := Problem.single Float
  let par : Params Float :=
    { (default : Params Float) with tolerance := 1e-6, recordEvery := 3, iterationLimit := 5 }
  have h : par.error? p.rows p.cols = none := by decide +kernel
  have herror : ∀ i ∈ [0, 3, 5],
      ¬ ((par.run (fun _ => 0) p).record (par.start p) i).error ≤ par.tolerance := by
    decide +kernel
  obtain ⟨k, sol, events, hsolve, hk, hle, -, -, hrecords, -, hstatus, -⟩ :=
    solve?_schedule (fun _ => 0) h
  obtain rfl : k = 5 := hk.1.resolve_right fun ⟨hdvd, hconverged⟩ => by
    change k ≤ 5 at hle
    change 3 ∣ k at hdvd
    have hdue : k ∈ [0, 3, 5] := by
      simp only [List.mem_cons]
      omega
    exact herror k hdue hconverged
  have hiteration : Record.iteration ∘ (par.run (fun _ => 0) p).record (par.start p) = id := rfl
  refine ⟨par, rfl, rfl, rfl, sol, events, hsolve, hstatus.2 (herror 5 (by simp)), ?_⟩
  rw [hrecords, List.map_map, hiteration, List.map_id]
  decide

end HybridGradient
