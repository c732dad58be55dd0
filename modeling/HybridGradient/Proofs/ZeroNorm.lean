import HybridGradient.Proofs.Underestimate
import HybridGradient.Scalar.Binary
import Mathlib.LinearAlgebra.FiniteDimensional.Lemmas
import Mathlib.LinearAlgebra.Matrix.Nondegenerate

/-!
# When the estimated norm is zero

An estimate of zero is meant to tell a matrix of zeros, for which any step size will do, and an
infinite one is chosen. But what it tells is that three start vectors are annihilated. With at most
three columns this comes to the same, since the start vectors are linearly independent. With more
columns there is always another matrix that annihilates them. For ten columns one of them has no
entries but ones and minus ones: the components of a start vector belong to the multiples of
one number, so that two of them have the same sum as two others if their indices do.

* `SpectralNorm.Annihilates`: a matrix annihilates all start vectors;
* `SpectralNorm.Annihilates.eq_zero`, `SpectralNorm.exists_annihilates`: which matrices do so;
* `SpectralNorm.norm_eq_zero_iff_annihilates`: when the estimate is zero;
* `norm_estimate_twoDifferences`: a row that is overlooked.
-/

namespace HybridGradient

open Extended Matrix Float.Model SpectralNorm

namespace SpectralNorm

variable {m n : ℕ} {M : Matrix (Fin m) (Fin n) ℝ} {A : SparseMatrix Extended}

/-! ### Annihilated start vectors -/

/-- A matrix annihilates all start vectors. -/
def Annihilates (M : Matrix (Fin m) (Fin n) ℝ) : Prop :=
  ∀ seed < 3, M *ᵥ startDirection n (UInt64.ofNat seed) = 0

theorem Annihilates.norm_estimate_eq (h : Annihilates M) (hA : A.Denotes M) (passes : ℕ)
    (tolerance : ℝ) : (estimate A passes (.real tolerance)).norm = 0 := by
  rcases norm_estimate hA passes tolerance with ⟨-, hnorm⟩ | ⟨-, seed, -, hseed, -⟩
  · exact hnorm
  · exact absurd (h seed hseed.1.1) hseed.1.2

/-- With a pass, the estimate is zero exactly if all start vectors are annihilated. -/
theorem norm_estimate_eq_zero_iff (hA : A.Denotes M) {passes : ℕ} (hpasses : 0 < passes)
    (tolerance : ℝ) :
    (estimate A passes (.real tolerance)).norm = 0 ↔ Annihilates M := by
  refine ⟨fun h => ?_, fun h => h.norm_estimate_eq hA passes tolerance⟩
  rcases norm_estimate hA passes tolerance with ⟨hzero, -⟩ | ⟨-, seed, k, hseed, -, hnorm⟩
  · exact hzero.resolve_left hpasses.ne'
  · have hpos := Real.sqrt_pos.2 (growth_pos hseed.1.2 k)
    exact absurd (real.inj (hnorm.symm.trans h)) hpos.ne'

/-- Exactly then the step size that is chosen is infinite. -/
theorem chooseStepSize_eq_top_iff (hA : A.Denotes M) {par : Params Extended}
    (hstep : par.stepSize = none) (hpasses : 0 < par.powerPasses.toNat) {tolerance : ℝ}
    (htol : par.powerTolerance = .real tolerance) :
    (par.chooseStepSize A).1 = .top ↔ Annihilates M := by
  rw [← norm_estimate_eq_zero_iff hA hpasses tolerance, chooseStepSize_of_none hstep, htol]
  rcases norm_estimate hA par.powerPasses.toNat tolerance with
    ⟨-, hnorm⟩ | ⟨-, seed, k, hseed, -, hnorm⟩
  · rw [hnorm, Extended.div_zero, sign_pos stepFactor_pos]
    exact iff_of_true rfl rfl
  · have hpos := Real.sqrt_pos.2 (growth_pos hseed.1.2 k)
    rw [hnorm, div_real _ hpos.ne']
    exact iff_of_false nofun fun h => hpos.ne' (real.inj h)

/-! ### Components -/

/-- The numerator of a positive number over the 53rd power of two, if it is such a fraction. -/
def numerator : UnpackedFloat → ℕ
  | .finite .positive m e _ => if -53 ≤ e then m * 2 ^ (e + 53).toNat else 0
  | _ => 0

theorem ofUnpacked_eq_real {u : UnpackedFloat} (h : numerator u ≠ 0) :
    ofUnpacked u = .real (numerator u / 2 ^ 53) := by
  cases u with
  | finite s m e hm =>
    cases s with
    | positive =>
      have he : -53 ≤ e := by_contra fun he => h (if_neg he)
      have hpow : (2 : ℝ) ^ e = 2 ^ (e + 53).toNat / 2 ^ 53 := by
        rw [eq_div_iff (by positivity), ← zpow_natCast, ← zpow_natCast, ← zpow_add₀ two_ne_zero,
          Int.toNat_of_nonneg (by omega), Nat.cast_ofNat]
      rw [numerator, if_pos he, Nat.cast_mul, Nat.cast_pow, Nat.cast_ofNat, mul_div_assoc, ← hpow]
      rfl
    | negative => exact absurd rfl h
  | infinity s => exact absurd rfl h
  | notANumber => exact absurd rfl h
  | zero s => exact absurd rfl h

/-- The numerator of a component of a start vector. -/
def startNumerator (seed j : ℕ) : ℕ :=
  numerator (startComponent (UInt64.ofNat seed) j).toModel.unpack

theorem startDirection_eq {seed : ℕ} {j : Fin n} (h : startNumerator seed j ≠ 0) :
    startDirection n (UInt64.ofNat seed) j = startNumerator seed j / 2 ^ 53 :=
  congrArg Extended.toReal (ofUnpacked_eq_real h)

theorem mem_seeds {seed : ℕ} (h : seed < 3) : seed ∈ [0, 1, 2] := by
  interval_cases seed <;> decide

/-! ### Few columns -/

/-- The first three components of the start vectors are linearly independent. -/
theorem det_startNumerator_ne_zero :
    (of fun i j : Fin 3 => (startNumerator i j : ℤ)).det ≠ 0 := by
  rw [det_fin_three]
  decide +kernel

theorem startNumerator_ne_zero :
    ∀ seed ∈ [0, 1, 2], ∀ j ∈ [0, 1, 2, 8, 9], startNumerator seed j ≠ 0 := by
  decide +kernel

/-- With at most three columns, only the matrix of zeros annihilates all start vectors. -/
theorem Annihilates.eq_zero (h : Annihilates M) (hn : n ≤ 3) : M = 0 := by
  let S : Matrix (Fin 3) (Fin 3) ℝ := of fun seed j => (startNumerator seed j : ℝ)
  have hdet : S.det ≠ 0 := by
    have hmap : S = (of fun i j : Fin 3 => (startNumerator i j : ℤ)).map (Int.castRingHom ℝ) := by
      ext i j
      simp [S]
    rw [hmap, ← RingHom.mapMatrix_apply, ← RingHom.map_det]
    exact (map_ne_zero_iff _ Int.cast_injective).2 det_startNumerator_ne_zero
  ext i j
  -- The row is filled up with zeros.
  let x : ℕ → ℝ := fun j => if hj : j < n then M i ⟨j, hj⟩ else 0
  have hx : S *ᵥ (fun j : Fin 3 => x j) = 0 := by
    funext seed
    have hrow : ∑ j : Fin n, M i j * startDirection n (UInt64.ofNat seed) j = 0 :=
      congrFun (h seed seed.2) i
    calc (S *ᵥ fun j : Fin 3 => x j) seed
      _ = ∑ j ∈ Finset.range 3, startNumerator seed j * x j :=
        Fin.sum_univ_eq_sum_range (fun j => startNumerator seed j * x j) 3
      _ = ∑ j ∈ Finset.range n, startNumerator seed j * x j := by
        refine (Finset.sum_subset (Finset.range_subset_range.2 hn) fun j _ hj => ?_).symm
        rw [Finset.mem_range] at hj
        simp [x, hj]
      _ = ∑ j : Fin n, startNumerator seed j * x j :=
        (Fin.sum_univ_eq_sum_range (fun j => startNumerator seed j * x j) n).symm
      _ = 2 ^ 53 * ∑ j : Fin n, M i j * startDirection n (UInt64.ofNat seed) j := by
        rw [Finset.mul_sum]
        refine Finset.sum_congr rfl fun j _ => ?_
        have hj : (j : ℕ) ∈ [0, 1, 2, 8, 9] :=
          List.mem_append_left [8, 9] (mem_seeds (j.2.trans_le hn))
        rw [startDirection_eq (startNumerator_ne_zero _ (mem_seeds seed.2) _ hj)]
        simp only [x, j.2, dite_true, Fin.eta]
        ring
      _ = 0 := by rw [hrow, mul_zero]
  have hj := congrFun (eq_zero_of_mulVec_eq_zero hdet hx) ⟨j, j.2.trans_le hn⟩
  simpa [x] using hj

/-- Some vector is at right angles to fewer others than it has components. -/
theorem exists_dotProduct_eq_zero {k : ℕ} (h : k < n) (d : ℕ → Fin n → ℝ) :
    ∃ x, x ≠ 0 ∧ ∀ i < k, x ⬝ᵥ d i = 0 := by
  let S : Matrix (Fin k) (Fin n) ℝ := of fun i => d i
  have hker : LinearMap.ker S.mulVecLin ≠ ⊥ :=
    LinearMap.ker_ne_bot_of_finrank_lt (by simpa using h)
  obtain ⟨x, hx, hne⟩ := Submodule.exists_mem_ne_zero_of_ne_bot hker
  refine ⟨x, hne, fun i hi => ?_⟩
  rw [dotProduct_comm]
  exact congrFun hx ⟨i, hi⟩

theorem annihilates_row {x : Fin n → ℝ}
    (h : ∀ seed < 3, x ⬝ᵥ startDirection n (UInt64.ofNat seed) = 0) :
    Annihilates (of fun _ : Fin 1 => x) := by
  have hrow (v : Fin n → ℝ) : (of fun _ : Fin 1 => x) *ᵥ v = fun _ => x ⬝ᵥ v := rfl
  intro seed hseed
  rw [hrow, h seed hseed]
  rfl

/-- With more columns, some other row annihilates them as well. -/
theorem exists_annihilates (hn : 3 < n) :
    ∃ M : Matrix (Fin 1) (Fin n) ℝ, M ≠ 0 ∧ Annihilates M := by
  obtain ⟨x, hne, hx⟩ :=
    exists_dotProduct_eq_zero hn fun seed => startDirection n (UInt64.ofNat seed)
  exact ⟨of fun _ => x, fun h => hne (congrFun h 0), annihilates_row hx⟩

/-! ### When the estimate is zero -/

/-- With a pass, the estimate is zero, and the step size that is chosen is infinite, exactly if
    the matrix annihilates all start vectors. The matrix of zeros does so, and it is the only one
    if and only if there are at most three columns. -/
theorem norm_eq_zero_iff_annihilates (hA : A.Denotes M) {passes : ℕ} (hpasses : 0 < passes)
    (tolerance : ℝ) :
    ((estimate A passes (.real tolerance)).norm = 0 ↔ Annihilates M) ∧
    (∀ par : Params Extended, par.stepSize = none → par.powerPasses.toNat = passes →
      par.powerTolerance = .real tolerance →
      ((par.chooseStepSize A).1 = .top ↔ Annihilates M)) ∧
    (M = 0 → Annihilates M) ∧ (n ≤ 3 → Annihilates M → M = 0) ∧
    (3 < n → ∃ M' : Matrix (Fin 1) (Fin n) ℝ, M' ≠ 0 ∧ Annihilates M') := by
  refine ⟨norm_estimate_eq_zero_iff hA hpasses tolerance, ?_, ?_, fun hn h => h.eq_zero hn,
    exists_annihilates⟩
  · rintro par hstep rfl htol
    exact chooseStepSize_eq_top_iff hA hstep hpasses htol
  · rintro rfl seed -
    exact zero_mulVec _

/-- The turned matrix has two columns and is not zero, so that already one pass finds it. -/
theorem norm_estimate_twist_ne_zero :
    (estimate (SparseMatrix.twist (real 3) (real 4)) 1 (.real 0)).norm ≠ 0 := by
  obtain ⟨hzero, -, -, hfew, -⟩ := norm_eq_zero_iff_annihilates (denotes_twist 3 4) one_pos 0
  intro h
  have hM := hfew (by decide) (hzero.1 h)
  have hentry := congrFun (congrFun hM 0) 0
  norm_num at hentry

end SpectralNorm

/-! ### A row that is overlooked -/

/-- The row that takes the difference of two variables from the difference of two others. -/
def SparseMatrix.twoDifferences (α : Type) [Scalar α] : SparseMatrix α :=
  .ofEntries 1 10 .byColumn [⟨0, 0, 1⟩, ⟨0, 1, -1⟩, ⟨0, 8, -1⟩, ⟨0, 9, 1⟩] (by simp)

theorem denotes_twoDifferences : (SparseMatrix.twoDifferences Extended).Denotes
    (of fun _ : Fin 1 => (![1, -1, 0, 0, 0, 0, 0, 0, -1, 1] : Fin 10 → ℝ)) := by
  have hsum : (of fun _ : Fin 1 => (![1, -1, 0, 0, 0, 0, 0, 0, -1, 1] : Fin 10 → ℝ)) =
      of fun (i : Fin 1) (j : Fin 10) =>
        Entry.sumAt [⟨0, 0, 1⟩, ⟨0, 1, -1⟩, ⟨0, 8, -1⟩, ⟨0, 9, 1⟩] i j := by
    ext i j
    fin_cases i
    fin_cases j <;> simp [Entry.sumAt, Entry.valueAt, one_eq]
  rw [hsum]
  exact SparseMatrix.denotes_ofEntries _ (by simp [one_eq])

/-- The components of a start vector are those of the multiples of one number, so that sums of
    components are the same if the sums of their indices are. -/
theorem annihilates_twoDifferences :
    Annihilates (of fun _ : Fin 1 => (![1, -1, 0, 0, 0, 0, 0, 0, -1, 1] : Fin 10 → ℝ)) := by
  have hsum : ∀ seed ∈ [0, 1, 2], startNumerator seed 0 + startNumerator seed 9 =
      startNumerator seed 1 + startNumerator seed 8 := by decide +kernel
  refine annihilates_row fun seed hseed => ?_
  have hmem := mem_seeds hseed
  have hcomponent (j : Fin 10) (hj : (j : ℕ) ∈ [0, 1, 2, 8, 9]) :=
    startDirection_eq (startNumerator_ne_zero seed hmem j hj)
  have hreal : (startNumerator seed 0 : ℝ) + startNumerator seed 9 =
      startNumerator seed 1 + startNumerator seed 8 := mod_cast hsum seed hmem
  have hproduct (d : Fin 10 → ℝ) :
      ![1, -1, 0, 0, 0, 0, 0, 0, -1, 1] ⬝ᵥ d = d 0 + d 9 - (d 1 + d 8) := by
    simp [dotProduct, Fin.sum_univ_succ]
    ring
  rw [hproduct, hcomponent 0 (by decide), hcomponent 9 (by decide), hcomponent 1 (by decide),
    hcomponent 8 (by decide), ← add_div, ← add_div, sub_eq_zero]
  exact congrArg (· / 2 ^ 53) hreal

/-- The matrix of this row is not zero, but its estimated norm is, and it gets an infinite step
    size, in exact arithmetic and in binary64. -/
theorem norm_estimate_twoDifferences :
    (∃ M : Matrix (Fin 1) (Fin 10) ℝ, (SparseMatrix.twoDifferences Extended).Denotes M ∧ M ≠ 0 ∧
      ∀ passes, 0 < passes → ∀ tolerance : ℝ,
        (estimate (.twoDifferences Extended) passes (.real tolerance)).norm = 0) ∧
    ((default : Params Extended).chooseStepSize (.twoDifferences Extended)).1 = .top ∧
    (estimate (.twoDifferences Float) 1000 (Scalar.tenth 8)).norm = 0 ∧
    ((default : Params Float).chooseStepSize (.twoDifferences Float)).1 = Scalar.infinity := by
  have hannihilates := annihilates_twoDifferences
  refine ⟨⟨_, denotes_twoDifferences, fun h => ?_, fun passes _ tolerance =>
    hannihilates.norm_estimate_eq denotes_twoDifferences passes tolerance⟩, ?_, ?_, ?_⟩
  · have hentry := congrFun (congrFun h 0) 0
    simp at hentry
  · exact (chooseStepSize_eq_top_iff denotes_twoDifferences rfl (by decide) (tenth_real 8)).2
      hannihilates
  · decide +kernel
  · decide +kernel

end HybridGradient
