import HybridGradient.Proofs.Binary64
import HybridGradient.Proofs.RealMatrix
import HybridGradient.SpectralNorm

/-!
# The power method in exact arithmetic

With `G = Mᵀ M` for the matrix `M` that a sparse matrix stands for, the power method goes
through the directions of `Gⁱ s`, from the start vector `s` on. In exact arithmetic it is
decided by the growths `|Gⁱ⁺¹ s| / |Gⁱ s|` alone.

* `SpectralNorm.startDirection`: the direction of a start vector;
* `SpectralNorm.growth`, `SpectralNorm.Settles`: what the passes see, and the passes with
  which the method may end;
* `SpectralNorm.powerMethod_annihilated`, `SpectralNorm.powerMethod_estimated`: the
  outcome of the method;
* `SpectralNorm.norm_estimateFrom`: the estimate from the first start vector that is not
  annihilated;
* `SpectralNorm.exists_growth_le`: no growth exceeds the square of the norm.
-/

namespace HybridGradient

open Extended Matrix

namespace SpectralNorm

variable {m n : ℕ}

/-! ### Start vectors -/

/-- The vector of positive numbers of which a start vector has the direction. -/
noncomputable def startDirection (n : ℕ) (seed : UInt64) (j : Fin n) : ℝ :=
  (Extended.ofBinary64 (startComponent seed j)).toReal

theorem startDirection_pos (seed : UInt64) (j : Fin n) : 0 < startDirection n seed j := by
  obtain ⟨x, hx, heq⟩ := ofBinary64_startComponent seed j
  rw [startDirection, heq, toReal_real]
  exact hx

theorem ofBinary64_startComponent_eq (seed : UInt64) (j : Fin n) :
    Extended.ofBinary64 (startComponent seed j) = .real (startDirection n seed j) := by
  obtain ⟨x, -, heq⟩ := ofBinary64_startComponent seed j
  rw [startDirection, heq, toReal_real]

theorem startDirection_ne_zero (hn : 0 < n) (seed : UInt64) : startDirection n seed ≠ 0 :=
  fun h => (startDirection_pos seed ⟨0, hn⟩).ne' (congrFun h _)

/-- The vector of unit length with a direction. -/
noncomputable def unit (x : Fin n → ℝ) : Fin n → ℝ := (length x)⁻¹ • x

theorem startVector_eq (hn : 0 < n) (seed : UInt64) :
    (startVector n seed : Vec Extended) = Vec.real (unit (startDirection n seed)) := by
  have hraw : (Array.ofFn fun j : Fin n => Scalar.ofBinary64 (startComponent seed j)) =
      Vec.real (startDirection n seed) :=
    congrArg Array.ofFn (funext fun j => ofBinary64_startComponent_eq seed j)
  have hlength : length (startDirection n seed) ≠ 0 :=
    (length_pos.2 (startDirection_ne_zero hn seed)).ne'
  rw [startVector, hraw, Vec.norm_real, recip_real hlength, Vec.scale_real, unit]

/-! ### Powers -/

variable (M : Matrix (Fin m) (Fin n) ℝ) (s : Fin n → ℝ)

/-- The matrix that the power method applies in each pass. -/
def gramMatrix : Matrix (Fin n) (Fin n) ℝ := Mᵀ * M

/-- The direction in which the power method is before a pass, not normalised. -/
def power (i : ℕ) : Fin n → ℝ := gramMatrix M ^ i *ᵥ s

/-- The growth of the direction in a pass. -/
noncomputable def growth (i : ℕ) : ℝ := length (power M s (i + 1)) / length (power M s i)

/-- The growth in the pass before one, which is zero before the first pass. -/
noncomputable def growthBefore : ℕ → ℝ
  | 0 => 0
  | i + 1 => growth M s i

/-- The power method, with a number of passes at most, ends with a pass. -/
def Settles (passes : ℕ) (tolerance : ℝ) (i : ℕ) : Prop :=
  i + 1 = passes ∨ |growth M s i - growthBefore M s i| ≤ tolerance * growth M s i

variable {M s}

theorem gramMatrix_mulVec (x : Fin n → ℝ) : gramMatrix M *ᵥ x = Mᵀ *ᵥ (M *ᵥ x) :=
  (mulVec_mulVec x Mᵀ M).symm

theorem power_zero : power M s 0 = s := by rw [power, pow_zero, one_mulVec]

theorem power_succ (i : ℕ) : power M s (i + 1) = gramMatrix M *ᵥ power M s i := by
  rw [power, power, pow_succ', mulVec_mulVec]

/-- The form of the matrix is the square of the length of an image. -/
theorem dotProduct_gramMatrix (x y : Fin n → ℝ) :
    (gramMatrix M *ᵥ x) ⬝ᵥ y = (M *ᵥ x) ⬝ᵥ (M *ᵥ y) := by
  rw [gramMatrix_mulVec, mulVec_transpose, ← dotProduct_mulVec]

/-- What is not annihilated once never is. -/
theorem mulVec_power_ne_zero (h : M *ᵥ s ≠ 0) (i : ℕ) : M *ᵥ power M s i ≠ 0 := by
  induction i with
  | zero => rwa [power_zero]
  | succ i ih =>
    intro h0
    -- If `M G v` is zero then so is `G v`, and so is `M v`.
    have hgram : gramMatrix M *ᵥ power M s i = 0 := by
      rw [← dotProduct_self_eq_zero, dotProduct_gramMatrix, ← power_succ, h0, dotProduct_zero]
    apply ih
    rw [← dotProduct_self_eq_zero, ← dotProduct_gramMatrix, hgram, zero_dotProduct]

theorem power_ne_zero (h : M *ᵥ s ≠ 0) (i : ℕ) : power M s i ≠ 0 := fun h0 =>
  mulVec_power_ne_zero h i (by rw [h0, mulVec_zero])

theorem growth_pos (h : M *ᵥ s ≠ 0) (i : ℕ) : 0 < growth M s i :=
  div_pos (length_pos.2 (power_ne_zero h (i + 1))) (length_pos.2 (power_ne_zero h i))

theorem gramMatrix_unit (i : ℕ) :
    gramMatrix M *ᵥ unit (power M s i) = (length (power M s i))⁻¹ • power M s (i + 1) := by
  rw [unit, mulVec_smul, power_succ]

theorem length_gramMatrix_unit (i : ℕ) :
    length (gramMatrix M *ᵥ unit (power M s i)) = growth M s i := by
  rw [gramMatrix_unit, length_smul (inv_nonneg.2 (length_nonneg _)), growth, div_eq_inv_mul]

/-- A pass leads from one direction to the next one. -/
theorem unit_power_succ (h : M *ᵥ s ≠ 0) (i : ℕ) :
    (growth M s i)⁻¹ • (gramMatrix M *ᵥ unit (power M s i)) = unit (power M s (i + 1)) := by
  have hne := (length_pos.2 (power_ne_zero h i)).ne'
  rw [gramMatrix_unit, smul_smul, growth, inv_div, unit, div_mul_eq_mul_div,
    mul_inv_cancel₀ hne, one_div]

/-- The growth of an eigenvector is its eigenvalue. -/
theorem growth_of_eigenvector {a : ℝ} (ha : 0 < a) (hs : s ≠ 0)
    (h : gramMatrix M *ᵥ s = a • s) (i : ℕ) : growth M s i = a := by
  have hpower (i : ℕ) : power M s i = a ^ i • s := by
    induction i with
    | zero => rw [power_zero, pow_zero, one_smul]
    | succ i ih => rw [power_succ, ih, mulVec_smul, h, smul_smul, pow_succ]
  have hlength := (length_pos.2 hs).ne'
  rw [growth, hpower, hpower, length_smul (pow_nonneg ha.le _), length_smul (pow_nonneg ha.le _),
    mul_div_mul_right _ _ hlength, pow_succ, mul_div_cancel_left₀ _ (pow_ne_zero i ha.ne')]

/-! ### The method -/

variable {A : SparseMatrix Extended}

theorem gram_real (hA : A.Denotes M) (x : Fin n → ℝ) :
    gram A (Vec.real x) = Vec.real (gramMatrix M *ᵥ x) := by
  have hzero : (0 : Extended) = .real 0 := rfl
  rw [gram, hA.rows, hA.cols, Vec.zeros_eq, Vec.zeros_eq, one_eq, hzero, hA.product,
    hA.transposeProduct, gramMatrix_mulVec]
  simp only [zero_smul, one_smul, zero_add]

/-- A start vector that the matrix maps to zero is annihilated by the first pass. -/
theorem powerMethod_annihilated (hA : A.Denotes M) (hn : 0 < n) {seed : UInt64}
    (h : M *ᵥ startDirection n seed = 0) {passes : ℕ} (hpasses : 0 < passes) (tolerance : ℝ) :
    powerMethod A passes (.real tolerance) (startVector n seed) = .annihilated := by
  obtain ⟨passes, rfl⟩ := Nat.exists_eq_succ_of_ne_zero hpasses.ne'
  have hgram : gramMatrix M *ᵥ unit (startDirection n seed) = 0 := by
    rw [gramMatrix_mulVec, unit, mulVec_smul, h, smul_zero, mulVec_zero]
  have hlength : Vec.norm (gram A (Vec.real (unit (startDirection n seed)))) = .real 0 := by
    rw [gram_real hA, Vec.norm_real, hgram, length_eq_zero.2 rfl]
  rw [powerMethod, startVector_eq hn, powerMethodFrom]
  simp only [hlength]
  exact if_pos (real_beq_zero.2 rfl)

/-- From any pass on, the method ends with the first one that settles. -/
theorem powerMethodFrom_real (hA : A.Denotes M) (h : M *ᵥ s ≠ 0) {passes : ℕ} (tolerance : ℝ)
    {remaining i : ℕ} (hremaining : 0 < remaining) (hi : i + remaining = passes) :
    ∃ k settledAt, IsLeast {j | i ≤ j ∧ Settles M s passes tolerance j} k ∧
      powerMethodFrom A (.real tolerance) remaining i (Vec.real (unit (power M s i)))
        (.real (growthBefore M s i)) = .estimated (.real √(growth M s k)) settledAt := by
  -- By induction on the passes that remain: before each of them the method is at the
  -- direction of a power, and knows the growth in the pass before.
  induction remaining generalizing i with
  | zero => exact absurd hremaining (lt_irrefl 0)
  | succ remaining ih =>
    have hpos := growth_pos h i
    have hsqrt : Scalar.sqrt (real (growth M s i)) = real √(growth M s i) := sqrt_real hpos.le
    have hlength : Vec.norm (gram A (Vec.real (unit (power M s i)))) = .real (growth M s i) := by
      rw [gram_real hA, Vec.norm_real, length_gramMatrix_unit]
    rw [powerMethodFrom]
    simp only [hlength, sub_real, abs_real, mul_real, real_le_real, zero_lt_real]
    rw [if_neg (mt real_beq_zero.1 hpos.ne'), if_neg (not_not.2 hpos)]
    by_cases hsettle : |growth M s i - growthBefore M s i| ≤ tolerance * growth M s i
    · refine ⟨i, some i, ⟨⟨le_rfl, .inr hsettle⟩, fun j hj => hj.1⟩, ?_⟩
      rw [if_pos hsettle, hsqrt]
    · rw [if_neg hsettle, recip_real hpos.ne', gram_real hA, Vec.scale_real, unit_power_succ h]
      rcases Nat.eq_zero_or_pos remaining with rfl | hremaining'
      · -- There is no pass after this one.
        refine ⟨i, none, ⟨⟨le_rfl, .inl hi⟩, fun j hj => hj.1⟩, ?_⟩
        rw [powerMethodFrom, hsqrt]
      · obtain ⟨k, settledAt, hk, hrun⟩ := ih (i := i + 1) hremaining' (by omega)
        refine ⟨k, settledAt, ⟨⟨Nat.le_of_succ_le hk.1.1, hk.1.2⟩, ?_⟩, hrun⟩
        intro j hj
        rcases Nat.eq_or_lt_of_le hj.1 with rfl | hlt
        · exact absurd hj.2 fun h => h.elim (fun hlast => by omega) hsettle
        · exact hk.2 ⟨hlt, hj.2⟩

/-- From a start vector that is not annihilated, the estimate is the root of the growth in
    the first pass that settles. -/
theorem powerMethod_estimated (hA : A.Denotes M) (hn : 0 < n) {seed : UInt64}
    (h : M *ᵥ startDirection n seed ≠ 0) {passes : ℕ} (hpasses : 0 < passes) (tolerance : ℝ) :
    ∃ k settledAt, IsLeast {i | Settles M (startDirection n seed) passes tolerance i} k ∧
      powerMethod A passes (.real tolerance) (startVector n seed) =
        .estimated (.real √(growth M (startDirection n seed) k)) settledAt := by
  obtain ⟨k, settledAt, hk, hrun⟩ :=
    powerMethodFrom_real hA h tolerance hpasses (Nat.zero_add passes)
  simp only [Nat.zero_le, true_and] at hk
  rw [power_zero] at hrun
  exact ⟨k, settledAt, hk, by rw [powerMethod, startVector_eq hn]; exact hrun⟩

/-- The estimate from start vectors with consecutive seeds: it is zero if all of them are
    annihilated, and comes from the first one that is not. -/
theorem norm_estimateFrom (hA : A.Denotes M) (hn : 0 < n) {passes : ℕ} (hpasses : 0 < passes)
    (tolerance : ℝ) (first count : ℕ) :
    (∀ seed, first ≤ seed → seed < first + count →
        M *ᵥ startDirection n (UInt64.ofNat seed) = 0) ∧
      (estimateFrom A passes (.real tolerance) (List.range' first count)).norm = .real 0 ∨
    ∃ seed k, IsLeast {j | first ≤ j ∧ j < first + count ∧
        M *ᵥ startDirection n (UInt64.ofNat j) ≠ 0} seed ∧
      IsLeast {i | Settles M (startDirection n (UInt64.ofNat seed)) passes tolerance i} k ∧
      (estimateFrom A passes (.real tolerance) (List.range' first count)).norm =
        .real √(growth M (startDirection n (UInt64.ofNat seed)) k) := by
  induction count generalizing first with
  | zero => exact .inl ⟨fun seed h h' => absurd h' (by omega), rfl⟩
  | succ count ih =>
    rw [List.range'_succ, estimateFrom, hA.cols]
    by_cases h : M *ᵥ startDirection n (UInt64.ofNat first) = 0
    · rw [powerMethod_annihilated hA hn h hpasses]
      rcases ih (first + 1) with ⟨hall, hnorm⟩ | ⟨seed, k, hseed, hk, hnorm⟩
      · refine .inl ⟨?_, hnorm⟩
        intro seed hle hlt
        rcases Nat.eq_or_lt_of_le hle with rfl | hlt'
        · exact h
        · exact hall seed hlt' (by omega)
      · obtain ⟨⟨hle, hlt, hne⟩, hleast⟩ := hseed
        refine .inr ⟨seed, k, ⟨⟨Nat.le_of_succ_le hle, by omega, hne⟩, ?_⟩, hk, hnorm⟩
        -- The first seed is annihilated, so it is not among those that are not.
        rintro j ⟨hfirst, hj, hne'⟩
        rcases Nat.eq_or_lt_of_le hfirst with rfl | hlt'
        · exact absurd h hne'
        · exact hleast ⟨hlt', by omega, hne'⟩
    · obtain ⟨k, settledAt, hk, hrun⟩ := powerMethod_estimated hA hn h hpasses tolerance
      rw [hrun]
      exact .inr ⟨first, k, ⟨⟨le_rfl, by omega, h⟩, fun j hj => hj.1⟩, hk, rfl⟩

/-! ### The norm from below -/

/-- Some vector grows in length by no less than the root of the growth of a direction, so
    the method approaches the norm from below. -/
theorem exists_growth_le (h : M *ᵥ s ≠ 0) (i : ℕ) :
    ∃ w, w ≠ 0 ∧ √(growth M s i) * length w ≤ length (M *ᵥ w) := by
  -- Otherwise both this direction and the next one would be counterexamples.
  by_contra hnone
  push Not at hnone
  have hv := hnone _ (power_ne_zero h i)
  have hgv := hnone _ (power_ne_zero h (i + 1))
  have hlength := length_pos.2 (power_ne_zero h i)
  have hgrowth : growth M s i * length (power M s i) = length (power M s (i + 1)) :=
    div_mul_cancel₀ _ hlength.ne'
  have hsqrt := Real.mul_self_sqrt (growth_pos h i).le
  -- `|G v|² = M v · M G v`, which would be less than `|G v|²`.
  have hself : length (power M s (i + 1)) * length (power M s (i + 1)) ≤
      length (M *ᵥ power M s i) * length (M *ᵥ power M s (i + 1)) := by
    rw [length_mul_self]
    conv_lhs => arg 1; rw [power_succ]
    rw [dotProduct_gramMatrix]
    exact dotProduct_le_length _ _
  have hlt := mul_lt_mul'' hv hgv (length_nonneg _) (length_nonneg _)
  have hprod : √(growth M s i) * length (power M s i) *
      (√(growth M s i) * length (power M s (i + 1))) =
        length (power M s (i + 1)) * length (power M s (i + 1)) := by
    rw [mul_mul_mul_comm, hsqrt, ← mul_assoc, hgrowth]
  linarith

end SpectralNorm

end HybridGradient
