import HybridGradient.Proofs.Bounds
import HybridGradient.Proofs.EntryOrder
import HybridGradient.Proofs.Findings
import HybridGradient.Proofs.Lines
import HybridGradient.Scalar.Binary

/-!
# Storage does not matter

Arithmetic that rounds depends on the order in which sums are formed, and the entries of a matrix
are gone through in the order in which they are stored. Yet within one row they come by
increasing columns, and within one column by increasing rows, whichever way they are stored. As
every sum of a run is formed along a row or along a column, no result depends on the storage,
in any arithmetic.

* `SparseMatrix.Alike`: two matrices store the same entries;
* `SparseMatrix.Alike.product`, `Problem.Alike.step`, `Scaled.Alike.evaluate`,
  `SparseMatrix.Alike.estimate`, `Problem.Alike.balanced`: what is computed from them is the same;
* `solve?_storage`: a run on a program finds the same for both storages of its matrix, and for
  any order of the triplets that it is given by.
-/

namespace HybridGradient

/-! ### Entries of one line -/

namespace Storage

variable {α : Type} {s : Storage} {e f : Entry α}

/-- In each row the columns increase, in either storage. -/
theorem Before.col_lt (h : s.Before e f) (hrow : e.row = f.row) : e.col < f.col := by
  cases s <;> simp [Before, line, place, hrow] at h <;> omega

/-- In each column the rows increase, in either storage. -/
theorem Before.row_lt (h : s.Before e f) (hcol : e.col = f.col) : e.row < f.row := by
  cases s <;> simp [Before, line, place, hcol] at h <;> omega

/-- Entries at different positions are collected to the same list from any order. -/
theorem collect_eq_of_perm [Add α] {es fs : List (Entry α)} (h : es.Perm fs)
    (hes : es.Pairwise fun e f => ¬ f.SamePosition e) : s.collect es = s.collect fs := by
  have hfs : fs.Pairwise fun e f => ¬ f.SamePosition e :=
    (h.pairwise_iff fun hne hsame => hne ⟨hsame.1.symm, hsame.2.symm⟩).1 hes
  refine List.Perm.eq_of_pairwise ?_ (s.pairwise_before_collect es)
    (s.pairwise_before_collect fs) ((collect_perm hes).trans (h.trans (collect_perm hfs).symm))
  intro e f _ _ hef hfe
  simp only [Before] at hef hfe
  omega

end Storage

namespace SparseMatrix

variable {α : Type}

/-- Two matrices of one shape store the same entries, each in its own order. -/
structure Alike (A B : SparseMatrix α) : Prop where
  rows : A.rows = B.rows
  cols : A.cols = B.cols
  entries : A.entries.Perm B.entries

namespace Alike

variable {A B C : SparseMatrix α}

theorem symm (h : A.Alike B) : B.Alike A := ⟨h.rows.symm, h.cols.symm, h.entries.symm⟩

theorem trans (h : A.Alike B) (h' : B.Alike C) : A.Alike C :=
  ⟨h.rows.trans h'.rows, h.cols.trans h'.cols, h.entries.trans h'.entries⟩

/-- In one and the same storage, the entries have only one order. -/
theorem eq_of_storage (h : A.Alike B) (hstorage : A.storage = B.storage) : A = B := by
  refine eq_of_entries_eq h.rows h.cols hstorage (h.entries.eq_of_pairwise ?_ A.ordered ?_)
  · intro e f _ _ hef hfe
    simp only [Storage.Before] at hef hfe
    omega
  · rw [hstorage]
    exact B.ordered

/-- The entries of a line are the same, in the same order, if that is an order of the line in
    both storages. -/
theorem filter_eq (h : A.Alike B) {line place : Entry α → ℕ}
    (hplace : ∀ {s : Storage} {e f : Entry α}, s.Before e f → line e = line f → place e < place f)
    (i : ℕ) : A.entries.filter (line · = i) = B.entries.filter (line · = i) := by
  have hsorted (C : SparseMatrix α) :
      (C.entries.filter (line · = i)).Pairwise fun e f => place e < place f := by
    apply (C.ordered.filter _).imp_of_mem
    intro e f he hf hef
    simp only [List.mem_filter, decide_eq_true_eq] at he hf
    exact hplace hef (he.2.trans hf.2.symm)
  apply List.Perm.eq_of_pairwise _ (hsorted A) (hsorted B) (h.entries.filter _)
  intro e f _ _ hef hfe
  omega

theorem filter_row (h : A.Alike B) (i : ℕ) :
    A.entries.filter (·.row = i) = B.entries.filter (·.row = i) :=
  h.filter_eq Storage.Before.col_lt i

theorem filter_col (h : A.Alike B) (j : ℕ) :
    A.entries.filter (·.col = j) = B.entries.filter (·.col = j) :=
  h.filter_eq Storage.Before.row_lt j

theorem mapValues (h : A.Alike B) (f : Entry α → α) : (A.mapValues f).Alike (B.mapValues f) :=
  ⟨h.rows, h.cols, h.entries.map _⟩

theorem reorder [Add α] (h : A.Alike B) (s t : Storage) : (A.reorder s).Alike (B.reorder t) :=
  ⟨h.rows, h.cols, (A.reorder_perm s).trans (h.entries.trans (B.reorder_perm t).symm)⟩

end Alike

theorem alike_reorder [Add α] (A : SparseMatrix α) (s : Storage) : A.Alike (A.reorder s) :=
  ⟨rfl, rfl, (A.reorder_perm s).symm⟩

/-- Entries of different positions make the same matrix in any order. -/
theorem ofTriplets?_perm [Add α] {rows cols : ℕ} {triplets triplets' : List (Entry α)}
    {A : SparseMatrix α} (hA : ofTriplets? rows cols triplets = .ok A)
    (hperm : triplets'.Perm triplets)
    (hdistinct : triplets.Pairwise fun e f => ¬ f.SamePosition e) :
    ofTriplets? rows cols triplets' = .ok A := by
  obtain ⟨hbounds, hlines, rfl⟩ := eq_of_ofTriplets? hA
  rw [ofTriplets?_eq (fun e he => hbounds e (hperm.mem_iff.1 he)) hlines]
  congr 1
  exact eq_of_entries_eq rfl rfl rfl (Storage.collect_eq_of_perm hperm.symm hdistinct).symm

theorem alike_of_reorder? [Add α] {A B : SparseMatrix α} {s : Storage}
    (h : A.reorder? s = .ok B) : A.Alike B := by
  obtain rfl := eq_of_reorder? h
  exact A.alike_reorder s

/-! ### What is computed from a matrix -/

variable [Scalar α] {A B : SparseMatrix α}

theorem Alike.product (h : A.Alike B) : A.product = B.product := by
  funext alpha x beta y
  exact accumulate_congr h.filter_row alpha x _

theorem Alike.transposeProduct (h : A.Alike B) : A.transposeProduct = B.transposeProduct := by
  funext alpha x beta y
  exact accumulate_congr h.filter_col alpha x _

theorem Alike.balanceRows (h : A.Alike B) (f : Factors α) (b : Balance) (least : α) :
    f.balanceRows b least A = f.balanceRows b least B := by
  rw [Factors.balanceRows, Factors.balanceRows, h.rows,
    MagnitudeRange.ofLines_congr h.filter_row]

theorem Alike.balanceCols (h : A.Alike B) (f : Factors α) (b : Balance) (least : α) :
    f.balanceCols b least A = f.balanceCols b least B := by
  rw [Factors.balanceCols, Factors.balanceCols, h.cols,
    MagnitudeRange.ofLines_congr h.filter_col]

theorem Alike.pass (h : A.Alike B) (b : Balance) (least : α) :
    Factors.pass b least A = Factors.pass b least B := by
  funext f
  cases b <;> simp only [Factors.pass, h.balanceRows, h.balanceCols]

theorem Alike.balancing (h : A.Alike B) (means largests : ℕ) (least : α) :
    Factors.balancing A means largests least = Factors.balancing B means largests least := by
  simp only [Factors.balancing, Factors.passes, Factors.unit, h.pass, h.rows, h.cols]

open SpectralNorm

theorem Alike.powerMethodFrom (h : A.Alike B) (tolerance : α) (remaining i : ℕ) (v : Vec α)
    (square : α) :
    powerMethodFrom A tolerance remaining i v square =
      powerMethodFrom B tolerance remaining i v square := by
  induction remaining generalizing i v square with
  | zero => rfl
  | succ remaining ih =>
    have hgram : gram A v = gram B v := by
      rw [gram, gram, h.product, h.transposeProduct, h.rows, h.cols]
    simp only [SpectralNorm.powerMethodFrom, hgram, ih]

theorem Alike.estimateFrom (h : A.Alike B) (passes : ℕ) (tolerance : α) (seeds : List ℕ) :
    estimateFrom A passes tolerance seeds = estimateFrom B passes tolerance seeds := by
  induction seeds with
  | nil => rfl
  | cons seed seeds ih =>
    simp only [SpectralNorm.estimateFrom, powerMethod, h.powerMethodFrom, h.cols, ih]

theorem Alike.estimate (h : A.Alike B) (passes : ℕ) (tolerance : α) :
    estimate A passes tolerance = estimate B passes tolerance := by
  simp only [SpectralNorm.estimate, h.estimateFrom, h.rows, h.cols]

end SparseMatrix

/-! ### Problems -/

variable {α : Type}

/-- Two problems have the same data, and the same coefficients in any order. -/
structure Problem.Alike (p q : Problem α) : Prop where
  objective : p.objective = q.objective
  matrix : p.matrix.Alike q.matrix
  rightSide : p.rightSide = q.rightSide
  equalities : p.equalities = q.equalities
  lower : p.lower = q.lower
  upper : p.upper = q.upper

/-- Two scaled problems have the same factors, and the same data in any order. -/
structure Scaled.Alike (s t : Scaled α) : Prop where
  problem : s.problem.Alike t.problem
  variableFactors : s.variableFactors = t.variableFactors
  constraintFactors : s.constraintFactors = t.constraintFactors

variable [Scalar α]

/-- Data with the coefficients in another order are refused for the same cause, or make a
    problem that differs in nothing else. -/
theorem Problem.ofData?_alike {A B : SparseMatrix α} (h : A.Alike B)
    (objective rightSide : Vec α) (equalities : ℕ) (lower upper : Vec α) :
    (∀ cause, ofData? objective A rightSide equalities lower upper = .error cause ↔
      ofData? objective B rightSide equalities lower upper = .error cause) ∧
    ∀ p, ofData? objective A rightSide equalities lower upper = .ok p →
      ∃ q, ofData? objective B rightSide equalities lower upper = .ok q ∧ p.Alike q := by
  simp only [ofData?, h.rows, h.cols]
  by_cases hsizes : objective.size = B.cols ∧ rightSide.size = B.rows ∧ lower.size = B.cols ∧
      upper.size = B.cols
  · by_cases hcount : equalities ≤ B.rows
    · simp only [hsizes, hcount, and_self, dite_true]
      cases emptyBounds? lower upper with
      | some j => simp
      | none =>
        refine ⟨fun cause => by simp, ?_⟩
        intro p hp
        obtain rfl := Except.ok.inj hp
        exact ⟨_, rfl, rfl, h, rfl, rfl, rfl, rfl⟩
    · simp [hsizes, hcount]
  · simp only [hsizes, dite_false]
    simp

namespace Problem.Alike

variable {p q : Problem α}

theorem step (h : p.Alike q) : p.step = q.step := by
  funext t z
  simp only [Problem.step, stepPrimal, stepDual, projectPrimal, projectDual, h.objective,
    h.rightSide, h.equalities, h.lower, h.upper, h.matrix.product, h.matrix.transposeProduct]

theorem identity (h : p.Alike q) : (Scaled.identity p).Alike (.identity q) := by
  refine ⟨h, ?_, ?_⟩
  · simp only [Scaled.identity, cols, h.matrix.cols]
  · simp only [Scaled.identity, rows, h.matrix.rows]

theorem balanced (h : p.Alike q) (means largests : ℕ) (least : α) :
    (Scaled.balanced p means largests least).Alike (.balanced q means largests least) := by
  simp only [Scaled.balanced]
  split
  · exact h.identity
  · have hfactors := h.matrix.balancing means largests least
    refine ⟨⟨?_, ?_, ?_, h.equalities, ?_, ?_⟩, ?_, ?_⟩
    · simp only [Scaled.ofFactors, hfactors, h.objective]
    · simp only [Scaled.ofFactors, hfactors]
      exact (h.matrix.reorder _ _).mapValues _
    all_goals simp only [Scaled.ofFactors, hfactors, h.rightSide, h.lower, h.upper]

end Problem.Alike

namespace Scaled.Alike

variable {s t : Scaled α}

theorem scalePrimal (h : s.Alike t) : s.scalePrimal = t.scalePrimal := by
  funext x
  simp only [Scaled.scalePrimal, h.variableFactors]

theorem scaleDual (h : s.Alike t) : s.scaleDual = t.scaleDual := by
  funext y
  simp only [Scaled.scaleDual, h.constraintFactors]

theorem unscalePrimal (h : s.Alike t) : s.unscalePrimal = t.unscalePrimal := by
  funext x
  simp only [Scaled.unscalePrimal, h.variableFactors]

theorem unscaleDual (h : s.Alike t) : s.unscaleDual = t.unscaleDual := by
  funext y
  simp only [Scaled.unscaleDual, h.constraintFactors]

theorem evaluate (h : s.Alike t) : s.evaluate = t.evaluate := by
  funext z move i passes elapsed
  simp only [Scaled.evaluate, primalObjective, dualObjective, boundCost, rowViolations,
    boundViolations, costViolations, signViolations, reducedCosts, bounds, h.unscalePrimal,
    h.unscaleDual, h.problem.objective, h.problem.rightSide, h.problem.equalities,
    h.problem.lower, h.problem.upper, h.problem.matrix.product, h.problem.matrix.transposeProduct,
    h.variableFactors, h.constraintFactors]

end Scaled.Alike

/-! ### Runs -/

variable {p q : Problem α}

namespace Params

theorem alike_scaled (par : Params α) (h : p.Alike q) :
    (par.scaled p).1.Alike (par.scaled q).1 := by
  simp only [scaled]
  split
  · exact h.balanced _ _ _
  · exact h.identity

theorem chooseStepSize_eq_of_alike (par : Params α) {A B : SparseMatrix α} (h : A.Alike B) :
    par.chooseStepSize A = par.chooseStepSize B := by
  simp only [chooseStepSize, h.estimate]

theorem start_eq_of_alike (par : Params α) (h : p.Alike q) : par.start p = par.start q := by
  have hscaled := par.alike_scaled h
  simp only [start, hscaled.scalePrimal, hscaled.scaleDual, Problem.rows, Problem.cols,
    h.matrix.rows, h.matrix.cols]

theorem step_eq_of_alike (par : Params α) (h : p.Alike q) (clock clock' : ℕ → Float) :
    (par.run clock p).scaled.problem.step (par.run clock p).stepSize =
      (par.run clock' q).scaled.problem.step (par.run clock' q).stepSize := by
  have hproblem := (par.alike_scaled h).problem
  simp only [run, hproblem.step, par.chooseStepSize_eq_of_alike hproblem.matrix]

theorem lockstep_of_alike (par : Params α) (h : p.Alike q) (clock clock' : ℕ → Float) :
    (par.run clock p).Lockstep (par.run clock' q) (par.start p) (par.start q) := by
  have hstep := par.step_eq_of_alike h clock clock'
  refine ⟨rfl, rfl, rfl, fun i => ?_⟩
  have hmove := Run.move_congr hstep
    ((par.rows_run clock p).trans (h.matrix.rows.trans (par.rows_run clock' q).symm))
    ((par.cols_run clock p).trans (h.matrix.cols.trans (par.cols_run clock' q).symm))
  rw [Run.untimed_record, Run.untimed_record, par.start_eq_of_alike h, hmove,
    Run.iterate_congr hstep, show (par.run clock p).scaled.evaluate = _ from
      (par.alike_scaled h).evaluate]
  rfl

theorem original_eq_of_alike (par : Params α) (h : p.Alike q) (clock clock' : ℕ → Float) (i : ℕ) :
    (par.run clock p).original (par.start p) i = (par.run clock' q).original (par.start q) i := by
  have hscaled := par.alike_scaled h
  rw [Run.original, Run.original, par.start_eq_of_alike h,
    Run.iterate_congr (par.step_eq_of_alike h clock clock')]
  simp only [run, hscaled.unscalePrimal, hscaled.unscaleDual]

end Params

/-- Runs on the same program, stored in different ways, find the same. -/
theorem exists_findings_of_alike (par : Params α) (h : p.Alike q) (clock clock' : ℕ → Float) :
    ∃ findings, (solve? clock p par).map Outcome.findings = .ok findings ∧
      (solve? clock' q par).map Outcome.findings = .ok findings := by
  have hshape : par.error? p.rows p.cols = par.error? q.rows q.cols := by
    simp only [Problem.rows, Problem.cols, h.matrix.rows, h.matrix.cols]
  cases herr : par.error? p.rows p.cols with
  | some cause =>
    refine ⟨.error cause, ?_, ?_⟩
    · rw [solve?, herr]
      rfl
    · rw [solve?, ← hshape, herr]
      rfl
  | none =>
    obtain ⟨sol, hp, hq⟩ := (par.lockstep_of_alike h clock clock').exists_findings
      (par.original_eq_of_alike h clock clock') herr (hshape.symm.trans herr)
    exact ⟨.ok sol, hp, hq⟩

/-- Neither the storage of a matrix nor the order of the triplets that it is made of has any
    influence on a run, in any arithmetic.

    Triplets at different positions make one and the same matrix in every order. A program over
    the matrix that is made of some triplets, stored by column or reordered by row, is refused
    for the same cause or accepted in both cases, and then each run refuses its parameters for
    the same cause or finds the same solution, the same status and the same table, apart from
    the seconds. -/
theorem solve?_storage {rows cols : ℕ} {triplets : List (Entry α)} {A : SparseMatrix α}
    (hA : SparseMatrix.ofTriplets? rows cols triplets = .ok A) :
    (∀ triplets' : List (Entry α), triplets'.Perm triplets →
      triplets.Pairwise (fun e f => ¬ f.SamePosition e) →
      SparseMatrix.ofTriplets? rows cols triplets' = .ok A) ∧
    ∀ B : SparseMatrix α, B = A ∨ A.reorder? .byRow = .ok B →
      ∀ (objective rightSide : Vec α) (equalities : ℕ) (lower upper : Vec α),
        (∀ cause, Problem.ofData? objective A rightSide equalities lower upper = .error cause ↔
          Problem.ofData? objective B rightSide equalities lower upper = .error cause) ∧
        ∀ p, Problem.ofData? objective A rightSide equalities lower upper = .ok p →
          ∃ q, Problem.ofData? objective B rightSide equalities lower upper = .ok q ∧
            ∀ (clock clock' : ℕ → Float) (par : Params α), ∃ findings,
              (solve? clock p par).map Outcome.findings = .ok findings ∧
              (solve? clock' q par).map Outcome.findings = .ok findings := by
  refine ⟨fun triplets' hperm hdistinct => SparseMatrix.ofTriplets?_perm hA hperm hdistinct, ?_⟩
  intro B hB objective rightSide equalities lower upper
  have halike : A.Alike B := by
    rcases hB with rfl | hB
    · exact ⟨rfl, rfl, .refl _⟩
    · exact SparseMatrix.alike_of_reorder? hB
  obtain ⟨herror, hok⟩ :=
    Problem.ofData?_alike halike objective rightSide equalities lower upper
  refine ⟨herror, fun p hp => ?_⟩
  obtain ⟨q, hq, hpq⟩ := hok p hp
  exact ⟨q, hq, fun clock clock' par => exists_findings_of_alike par hpq clock clock'⟩

/-- Triplets at three corners of a square, column after column. -/
def Entry.corners : List (Entry Float) := [⟨0, 0, 1⟩, ⟨1, 0, 2⟩, ⟨0, 1, 3⟩]

/-- A program over three corners, given in either order and stored in either way. -/
theorem exists_findings_corners :
    ∃ (A B : SparseMatrix Float) (p q : Problem Float),
      SparseMatrix.ofTriplets? 2 2 Entry.corners = .ok A ∧
      SparseMatrix.ofTriplets? 2 2 Entry.corners.reverse = .ok A ∧
      A.reorder? .byRow = .ok B ∧
      A.entries.map (·.row) = [0, 1, 0] ∧ B.entries.map (·.row) = [0, 0, 1] ∧
      Problem.ofData? #[1, 1] A #[1, 1] 0 #[0, 0] #[1, 1] = .ok p ∧
      Problem.ofData? #[1, 1] B #[1, 1] 0 #[0, 0] #[1, 1] = .ok q ∧
      ∀ par : Params Float, ∃ findings,
        (solve? (fun _ => 0) p par).map Outcome.findings = .ok findings ∧
        (solve? (fun _ => 1) q par).map Outcome.findings = .ok findings := by
  have hbounds : ∀ e ∈ Entry.corners, e.row < 2 ∧ e.col < 2 := by simp [Entry.corners]
  have hA := SparseMatrix.ofTriplets?_eq hbounds rfl
  obtain ⟨hreverse, hstorage⟩ := solve?_storage hA
  let p : Problem Float := {
    objective := #[1, 1]
    matrix := .ofEntries 2 2 .byColumn Entry.corners hbounds
    rightSide := #[1, 1]
    equalities := 0
    lower := #[0, 0]
    upper := #[1, 1]
    size_objective := rfl
    size_rightSide := rfl
    size_lower := rfl
    size_upper := rfl
    equalities_le := Nat.zero_le _ }
  have hempty : Problem.emptyBounds? (#[0, 0] : Vec Float) #[1, 1] = none := by decide +kernel
  have hp : p.Accepted := Problem.accepted_iff_emptyBounds?.2 hempty
  obtain ⟨q, hq, hfindings⟩ :=
    (hstorage _ (.inr rfl) #[1, 1] #[1, 1] 0 #[0, 0] #[1, 1]).2 p hp
  exact ⟨_, _, p, q, hA, hreverse _ (List.reverse_perm _) (by decide), rfl, rfl, rfl,
    hp, hq, fun par => hfindings _ _ par⟩

end HybridGradient
