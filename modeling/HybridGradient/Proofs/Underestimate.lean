import HybridGradient.Proofs.StepSize

/-!
# The estimated norm from below

The lengths that the power method sees from one pass to the next never decrease, by the
inequality of Cauchy and Schwarz, and the square root of none of them exceeds the norm. So in
exact arithmetic the estimate is never too large, however many passes there are, and more passes
do not make it worse. It can be too small, as `exists_lt_chooseStepSize` shows.

* `SpectralNorm.direction`, `SpectralNorm.lengthAt`: the vector before a pass, and its length
  after it;
* `SpectralNorm.monotone_growth`, `SpectralNorm.lengthAt_real`: the lengths never decrease;
* `SpectralNorm.powerMethod_eq_annihilated_iff`: when the method gives up;
* `SpectralNorm.norm_estimate`: what the estimate comes to;
* `SpectralNorm.FromBelow`, `SpectralNorm.estimate_fromBelow`: what holds of every matrix.
-/

namespace HybridGradient

open Extended Matrix

namespace SpectralNorm

/-! ### Passes -/

section

variable {α : Type} [Scalar α]

/-- The vector before a pass of the power method. -/
def direction (A : SparseMatrix α) (v : Vec α) : ℕ → Vec α
  | 0 => v
  | i + 1 =>
    let w := gram A (direction A v i)
    Vec.scale (Scalar.recip (Vec.norm w)) w

/-- The length to which a pass brings the vector before it is normalised. -/
def lengthAt (A : SparseMatrix α) (v : Vec α) (i : ℕ) : α := Vec.norm (gram A (direction A v i))

end

variable {m n : ℕ} {M : Matrix (Fin m) (Fin n) ℝ} {s v : Fin n → ℝ}

/-! ### Growth -/

/-- The matrix of a pass can be moved from one factor of a product to the other. -/
theorem gramMatrix_mulVec_dotProduct (x y : Fin n → ℝ) :
    (gramMatrix M *ᵥ x) ⬝ᵥ y = x ⬝ᵥ (gramMatrix M *ᵥ y) := by
  rw [dotProduct_gramMatrix, dotProduct_comm x, dotProduct_gramMatrix, dotProduct_comm]

/-- The growth of a direction never decreases. -/
theorem monotone_growth (h : M *ᵥ s ≠ 0) : Monotone (growth M s) := by
  apply monotone_nat_of_le_succ
  intro i
  have hi := length_pos.2 (power_ne_zero h i)
  have hi' := length_pos.2 (power_ne_zero h (i + 1))
  -- The square of the middle one of three lengths is at most the product of the outer ones.
  have hmiddle : length (power M s (i + 1)) * length (power M s (i + 1)) ≤
      length (power M s i) * length (power M s (i + 2)) := calc
    _ = power M s (i + 1) ⬝ᵥ power M s (i + 1) := length_mul_self _
    _ = power M s i ⬝ᵥ power M s (i + 2) := by
      rw [power_succ (i + 1), ← gramMatrix_mulVec_dotProduct, ← power_succ]
    _ ≤ _ := dotProduct_le_length _ _
  rw [growth, growth, div_le_div_iff₀ hi hi', mul_comm (length (power M s (i + 1 + 1)))]
  exact hmiddle

/-- No growth exceeds the square of a bound on the norm. -/
theorem sqrt_growth_le {bound : ℝ} (hbound : ∀ w, length (M *ᵥ w) ≤ bound * length w)
    (h : M *ᵥ s ≠ 0) (i : ℕ) : √(growth M s i) ≤ bound := by
  obtain ⟨w, hw, hle⟩ := exists_growth_le h i
  exact le_of_mul_le_mul_right (hle.trans (hbound w)) (length_pos.2 hw)

theorem length_unit (h : s ≠ 0) : length (unit s) = 1 := by
  rw [unit, length_smul (inv_nonneg.2 (length_nonneg s)), inv_mul_cancel₀ (length_pos.2 h).ne']

theorem unit_of_length_eq_one (h : length v = 1) : unit v = v := by
  rw [unit, h, inv_one, one_smul]

/-- Already the first growth is no less than the square of the length of the image. -/
theorem length_mulVec_unit_le (h : M *ᵥ s ≠ 0) : length (M *ᵥ unit s) ≤ √(growth M s 0) := by
  have hs : s ≠ 0 := fun h0 => h (by rw [h0, mulVec_zero])
  apply Real.le_sqrt_of_sq_le
  calc length (M *ᵥ unit s) ^ 2
    _ = (gramMatrix M *ᵥ unit s) ⬝ᵥ unit s := by
      rw [sq, length_mul_self, dotProduct_gramMatrix]
    _ ≤ length (gramMatrix M *ᵥ unit s) * length (unit s) := dotProduct_le_length _ _
    _ = growth M s 0 := by rw [length_unit hs, mul_one, ← length_gramMatrix_unit, power_zero]

/-! ### The lengths of the method -/

variable {A : SparseMatrix Extended}

theorem direction_real (hA : A.Denotes M) (h : M *ᵥ s ≠ 0) (i : ℕ) :
    direction A (Vec.real (unit s)) i = Vec.real (unit (power M s i)) := by
  induction i with
  | zero => rw [direction, power_zero]
  | succ i ih =>
    rw [direction, ih, gram_real hA, Vec.norm_real, length_gramMatrix_unit,
      recip_real (growth_pos h i).ne', Vec.scale_real, unit_power_succ h]

theorem lengthAt_real (hA : A.Denotes M) (h : M *ᵥ s ≠ 0) (i : ℕ) :
    lengthAt A (Vec.real (unit s)) i = .real (growth M s i) := by
  rw [lengthAt, direction_real hA h, gram_real hA, Vec.norm_real, length_gramMatrix_unit]

/-! ### Annihilation -/

/-- A vector with an image is never annihilated, as what a pass makes of it has one as well. -/
theorem powerMethodFrom_ne_annihilated (hA : A.Denotes M) (tolerance : ℝ) {remaining i : ℕ}
    (square : Extended) (h : M *ᵥ v ≠ 0) :
    powerMethodFrom A (.real tolerance) remaining i (Vec.real v) square ≠ .annihilated := by
  induction remaining generalizing i v square with
  | zero => rintro ⟨⟩
  | succ remaining ih =>
    have hgram : M *ᵥ (gramMatrix M *ᵥ v) ≠ 0 := by
      have himage := mulVec_power_ne_zero h 1
      rwa [power_succ, power_zero] at himage
    have hpos : 0 < length (gramMatrix M *ᵥ v) :=
      length_pos.2 fun h0 => hgram (by rw [h0, mulVec_zero])
    rw [powerMethodFrom, gram_real hA, Vec.norm_real, if_neg (mt real_beq_zero.1 hpos.ne'),
      if_neg (not_not.2 (zero_lt_real.2 hpos))]
    split
    · rintro ⟨⟩
    · rw [recip_real hpos.ne', Vec.scale_real]
      refine ih _ ?_
      rw [mulVec_smul]
      exact smul_ne_zero (inv_ne_zero hpos.ne') hgram

/-- The method gives up exactly if there is a pass and the vector has no image, and then it does
    so with the first pass. -/
theorem powerMethod_eq_annihilated_iff (hA : A.Denotes M) (passes : ℕ) (tolerance : ℝ)
    (v : Fin n → ℝ) :
    powerMethod A passes (.real tolerance) (Vec.real v) = .annihilated ↔
      0 < passes ∧ M *ᵥ v = 0 := by
  constructor
  · intro h
    refine ⟨Nat.pos_of_ne_zero ?_, by_contra fun hv => ?_⟩
    · rintro rfl
      exact nomatch h
    · exact powerMethodFrom_ne_annihilated hA tolerance 0 hv h
  · rintro ⟨hpasses, hv⟩
    obtain ⟨passes, rfl⟩ := Nat.exists_eq_succ_of_ne_zero hpasses.ne'
    have hlength : Vec.norm (gram A (Vec.real v)) = .real 0 := by
      rw [gram_real hA, Vec.norm_real, gramMatrix_mulVec, hv, mulVec_zero, length_eq_zero.2 rfl]
    rw [powerMethod, powerMethodFrom]
    simp only [hlength]
    exact if_pos (real_beq_zero.2 rfl)

/-! ### Any number of passes -/

theorem powerMethod_zero (A : SparseMatrix Extended) (tolerance : Extended) (v : Vec Extended) :
    powerMethod A 0 tolerance v = .estimated (.real 0) none := by
  rw [powerMethod, powerMethodFrom, zero_eq, sqrt_real le_rfl, Real.sqrt_zero]

/-- From a vector of unit length with an image, the method ends with the first pass that settles. -/
theorem powerMethod_eq_estimated (hA : A.Denotes M) (hv : length v = 1) (h : M *ᵥ v ≠ 0)
    {passes : ℕ} (hpasses : 0 < passes) (tolerance : ℝ) :
    ∃ k settledAt, IsLeast {i | Settles M v passes tolerance i} k ∧
      powerMethod A passes (.real tolerance) (Vec.real v) =
        .estimated (.real √(growth M v k)) settledAt := by
  obtain ⟨k, settledAt, hk, hrun⟩ :=
    powerMethodFrom_real hA h tolerance hpasses (Nat.zero_add passes)
  simp only [Nat.zero_le, true_and] at hk
  rw [power_zero, unit_of_length_eq_one hv] at hrun
  exact ⟨k, settledAt, hk, hrun⟩

/-- What the estimate comes to. It is zero without a pass, or if every start vector is
    annihilated. -/
theorem norm_estimate (hA : A.Denotes M) (passes : ℕ) (tolerance : ℝ) :
    ((passes = 0 ∨ ∀ seed < 3, M *ᵥ startDirection n (UInt64.ofNat seed) = 0) ∧
      (estimate A passes (.real tolerance)).norm = .real 0) ∨
    0 < passes ∧ ∃ seed k,
      IsLeast {j | j < 3 ∧ M *ᵥ startDirection n (UInt64.ofNat j) ≠ 0} seed ∧
      IsLeast {i | Settles M (startDirection n (UInt64.ofNat seed)) passes tolerance i} k ∧
      (estimate A passes (.real tolerance)).norm =
        .real √(growth M (startDirection n (UInt64.ofNat seed)) k) := by
  rw [estimate, hA.rows, hA.cols]
  by_cases hshape : m = 0 ∨ n = 0
  · have hzero (x : Fin n → ℝ) : M *ᵥ x = 0 := by
      rcases hshape with rfl | rfl
      · exact Subsingleton.elim _ _
      · rw [Subsingleton.elim x 0, mulVec_zero]
    rw [if_pos hshape]
    exact .inl ⟨.inr fun seed _ => hzero _, rfl⟩
  · rw [if_neg hshape]
    have hn : 0 < n := Nat.pos_of_ne_zero fun h => hshape (.inr h)
    rcases Nat.eq_zero_or_pos passes with rfl | hpasses
    · refine .inl ⟨.inl rfl, ?_⟩
      rw [estimateFrom, powerMethod_zero]
    · rcases norm_estimateFrom hA hn hpasses tolerance 0 3 with
        ⟨hall, hnorm⟩ | ⟨seed, k, hseed, hk, hnorm⟩
      · exact .inl ⟨.inr fun seed hlt => hall seed (Nat.zero_le _) hlt, hnorm⟩
      · simp only [Nat.zero_le, true_and, Nat.zero_add] at hseed
        exact .inr ⟨hpasses, seed, k, hseed, hk, hnorm⟩

/-- With more passes the method does not end with an earlier one. -/
theorem settles_mono {p q k l : ℕ} {tolerance : ℝ} (hpq : p ≤ q) (hp : 0 < p)
    (hk : IsLeast {i | Settles M s p tolerance i} k)
    (hl : IsLeast {i | Settles M s q tolerance i} l) : k ≤ l := by
  rcases hl.1 with hlast | hsettle
  · have hk' : k ≤ p - 1 := hk.2 (.inl (by omega))
    omega
  · exact hk.2 (.inr hsettle)

/-- So the root of its growth is no less. -/
theorem sqrt_growth_mono (h : M *ᵥ s ≠ 0) {p q k l : ℕ} {tolerance : ℝ} (hpq : p ≤ q)
    (hp : 0 < p) (hk : IsLeast {i | Settles M s p tolerance i} k)
    (hl : IsLeast {i | Settles M s q tolerance i} l) : √(growth M s k) ≤ √(growth M s l) :=
  Real.sqrt_le_sqrt (monotone_growth h (settles_mono hpq hp hk hl))

/-! ### The estimate -/

/-- Without a given step size, it comes from the estimate. -/
theorem chooseStepSize_of_none {par : Params Extended} (h : par.stepSize = none)
    (A : SparseMatrix Extended) : (par.chooseStepSize A).1 =
      .real stepFactor / (estimate A par.powerPasses.toNat par.powerTolerance).norm := by
  rw [Params.chooseStepSize, h, ← ofBinary64_stepSizeFactor]

/-- What the power method makes of a matrix, with a given tolerance, is not above its norm. -/
structure FromBelow (A : SparseMatrix Extended) (M : Matrix (Fin m) (Fin n) ℝ)
    (tolerance : ℝ) : Prop where
  /-- With any number of passes, the estimate does not exceed a bound on the norm. -/
  norm_le : ∀ bound, 0 ≤ bound → (∀ w, length (M *ᵥ w) ≤ bound * length w) → ∀ passes,
    ∃ x, (estimate A passes (.real tolerance)).norm = .real x ∧ 0 ≤ x ∧ x ≤ bound
  /-- A step size that is chosen by it is no smaller than the one for the bound. -/
  le_stepSize : ∀ bound, 0 < bound → (∀ w, length (M *ᵥ w) ≤ bound * length w) →
    ∀ par : Params Extended, par.stepSize = none → par.powerTolerance = .real tolerance →
      (estimate A par.powerPasses.toNat par.powerTolerance).norm ≠ 0 →
      Scalar.ofBinary64 stepSizeFactor / .real bound ≤ (par.chooseStepSize A).1
  /-- From a vector of unit length with an image, the lengths are positive and never decrease,
      and the method ends with the root of one of them. -/
  monotone_lengthAt : ∀ v, length v = 1 → M *ᵥ v ≠ 0 → ∃ f : ℕ → ℝ, Monotone f ∧
    (∀ i, 0 < f i ∧ lengthAt A (Vec.real v) i = .real (f i)) ∧
    ∀ passes, 0 < passes → ∃ k < passes, ∃ settledAt,
      powerMethod A passes (.real tolerance) (Vec.real v) = .estimated (.real √(f k)) settledAt
  /-- More passes do not lower its result, nor the estimate. -/
  powerMethod_mono : ∀ v : Fin n → ℝ, length v = 1 → ∀ p q, p ≤ q → ∀ a b settledAt settledAt',
    powerMethod A p (.real tolerance) (Vec.real v) = .estimated a settledAt →
    powerMethod A q (.real tolerance) (Vec.real v) = .estimated b settledAt' → a ≤ b
  estimate_mono : ∀ p q, p ≤ q →
    (estimate A p (.real tolerance)).norm ≤ (estimate A q (.real tolerance)).norm
  /-- The method gives up exactly if there is a pass and the vector has no image. -/
  annihilated_iff : ∀ (v : Fin n → ℝ) (passes : ℕ),
    powerMethod A passes (.real tolerance) (Vec.real v) = .annihilated ↔ 0 < passes ∧ M *ᵥ v = 0
  /-- With a pass, the estimate is no less than the length of the image of the first start
      vector that has one. -/
  le_norm : ∀ passes, 0 < passes → ∀ seed,
    IsLeast {j | j < 3 ∧ M *ᵥ startDirection n (UInt64.ofNat j) ≠ 0} seed →
    ∃ v x, startVector n (UInt64.ofNat seed) = Vec.real v ∧ length v = 1 ∧
      (estimate A passes (.real tolerance)).norm = .real x ∧ length (M *ᵥ v) ≤ x

theorem norm_estimate_le (hA : A.Denotes M) (tolerance : ℝ) {bound : ℝ} (h0 : 0 ≤ bound)
    (hbound : ∀ w, length (M *ᵥ w) ≤ bound * length w) (passes : ℕ) :
    ∃ x, (estimate A passes (.real tolerance)).norm = .real x ∧ 0 ≤ x ∧ x ≤ bound := by
  rcases norm_estimate hA passes tolerance with ⟨-, hnorm⟩ | ⟨-, seed, k, hseed, -, hnorm⟩
  · exact ⟨0, hnorm, le_rfl, h0⟩
  · exact ⟨_, hnorm, Real.sqrt_nonneg _, sqrt_growth_le hbound hseed.1.2 k⟩

theorem le_chooseStepSize (hA : A.Denotes M) {tolerance bound : ℝ} (hpos : 0 < bound)
    (hbound : ∀ w, length (M *ᵥ w) ≤ bound * length w) {par : Params Extended}
    (hstep : par.stepSize = none) (htol : par.powerTolerance = .real tolerance)
    (hne : (estimate A par.powerPasses.toNat par.powerTolerance).norm ≠ 0) :
    Scalar.ofBinary64 stepSizeFactor / .real bound ≤ (par.chooseStepSize A).1 := by
  obtain ⟨x, hx, hnonneg, hle⟩ :=
    norm_estimate_le hA tolerance hpos.le hbound par.powerPasses.toNat
  rw [htol, hx] at hne
  have hx0 : 0 < x := hnonneg.lt_of_ne fun h => hne (h ▸ rfl)
  rw [chooseStepSize_of_none hstep, htol, hx, ofBinary64_stepSizeFactor, div_real _ hpos.ne',
    div_real _ hx0.ne', real_le_real]
  exact div_le_div_of_nonneg_left stepFactor_pos.le hx0 hle

/-- More passes do not lower the result of the method. -/
theorem le_of_powerMethod (hA : A.Denotes M) {tolerance : ℝ} (hv : length v = 1) {p q : ℕ}
    (hpq : p ≤ q) {a b : Extended} {settledAt settledAt' : Option ℕ}
    (ha : powerMethod A p (.real tolerance) (Vec.real v) = .estimated a settledAt)
    (hb : powerMethod A q (.real tolerance) (Vec.real v) = .estimated b settledAt') : a ≤ b := by
  -- With no pass at all the result is zero, which is the least one.
  have hzero {c : Extended} {settledAt : Option ℕ}
      (hc : powerMethod A 0 (.real tolerance) (Vec.real v) = .estimated c settledAt) :
      c = .real 0 := by
    rw [powerMethod_zero] at hc
    exact (Outcome.estimated.inj hc).1.symm
  rcases Nat.eq_zero_or_pos q with rfl | hq
  · obtain rfl : p = 0 := Nat.le_zero.1 hpq
    rw [hzero ha, hzero hb, real_le_real]
  · have h : M *ᵥ v ≠ 0 := fun h =>
      nomatch hb.symm.trans ((powerMethod_eq_annihilated_iff hA q tolerance v).2 ⟨hq, h⟩)
    obtain ⟨l, _, hl, hrun⟩ := powerMethod_eq_estimated hA hv h hq tolerance
    obtain ⟨rfl, -⟩ := Outcome.estimated.inj (hb.symm.trans hrun)
    rcases Nat.eq_zero_or_pos p with rfl | hp
    · rw [hzero ha, real_le_real]
      exact Real.sqrt_nonneg _
    · obtain ⟨k, _, hk, hrun⟩ := powerMethod_eq_estimated hA hv h hp tolerance
      obtain ⟨rfl, -⟩ := Outcome.estimated.inj (ha.symm.trans hrun)
      exact real_le_real.2 (sqrt_growth_mono h hpq hp hk hl)

/-- More passes do not lower the estimate. -/
theorem norm_estimate_mono (hA : A.Denotes M) (tolerance : ℝ) {p q : ℕ} (hpq : p ≤ q) :
    (estimate A p (.real tolerance)).norm ≤ (estimate A q (.real tolerance)).norm := by
  rcases norm_estimate hA p tolerance with ⟨-, hp⟩ | ⟨hpos, seed, k, hseed, hk, hp⟩
  · rcases norm_estimate hA q tolerance with ⟨-, hq⟩ | ⟨-, seed, l, -, -, hq⟩
    · rw [hp, hq, real_le_real]
    · rw [hp, hq, real_le_real]
      exact Real.sqrt_nonneg _
  · rcases norm_estimate hA q tolerance with ⟨hzero, -⟩ | ⟨-, seed', l, hseed', hl, hq⟩
    · exact absurd (hzero.resolve_left (by omega) seed hseed.1.1) hseed.1.2
    · obtain rfl := hseed.unique hseed'
      rw [hp, hq, real_le_real]
      exact sqrt_growth_mono hseed.1.2 hpq hpos hk hl

/-- The first start vector that has an image keeps the estimate from falling below the length of
    this image. -/
theorem length_mulVec_le_norm_estimate (hA : A.Denotes M) (tolerance : ℝ) {passes seed : ℕ}
    (hpasses : 0 < passes)
    (hseed : IsLeast {j | j < 3 ∧ M *ᵥ startDirection n (UInt64.ofNat j) ≠ 0} seed) :
    ∃ v x, startVector n (UInt64.ofNat seed) = Vec.real v ∧ length v = 1 ∧
      (estimate A passes (.real tolerance)).norm = .real x ∧ length (M *ᵥ v) ≤ x := by
  have hs : startDirection n (UInt64.ofNat seed) ≠ 0 := fun h0 =>
    hseed.1.2 (by rw [h0, mulVec_zero])
  have hn : 0 < n := by
    refine Nat.pos_of_ne_zero ?_
    rintro rfl
    exact hs (Subsingleton.elim _ _)
  rcases norm_estimate hA passes tolerance with ⟨hzero, -⟩ | ⟨-, seed', k, hseed', hk, hnorm⟩
  · exact absurd (hzero.resolve_left hpasses.ne' seed hseed.1.1) hseed.1.2
  · obtain rfl := hseed.unique hseed'
    exact ⟨_, _, startVector_eq hn _, length_unit hs, hnorm,
      (length_mulVec_unit_le hseed.1.2).trans
        (Real.sqrt_le_sqrt (monotone_growth hseed.1.2 (Nat.zero_le k)))⟩

/-- The lengths from a vector of unit length, and the one that is the result. -/
theorem exists_monotone_lengthAt (hA : A.Denotes M) (tolerance : ℝ) (hv : length v = 1)
    (h : M *ᵥ v ≠ 0) : ∃ f : ℕ → ℝ, Monotone f ∧
      (∀ i, 0 < f i ∧ lengthAt A (Vec.real v) i = .real (f i)) ∧
      ∀ passes, 0 < passes → ∃ k < passes, ∃ settledAt,
        powerMethod A passes (.real tolerance) (Vec.real v) =
          .estimated (.real √(f k)) settledAt := by
  refine ⟨growth M v, monotone_growth h, fun i => ⟨growth_pos h i, ?_⟩, fun passes hpasses => ?_⟩
  · have hlength := lengthAt_real hA h i
    rwa [unit_of_length_eq_one hv] at hlength
  · obtain ⟨k, settledAt, hk, hrun⟩ := powerMethod_eq_estimated hA hv h hpasses tolerance
    have hle : k ≤ passes - 1 := hk.2 (.inl (by omega))
    exact ⟨k, by omega, settledAt, hrun⟩

/-- Whatever the matrix and the tolerance are, the estimate comes from below. -/
theorem estimate_fromBelow (hA : A.Denotes M) (tolerance : ℝ) : FromBelow A M tolerance where
  norm_le _ h0 hbound passes := norm_estimate_le hA tolerance h0 hbound passes
  le_stepSize _ hpos hbound _ hstep htol hne := le_chooseStepSize hA hpos hbound hstep htol hne
  monotone_lengthAt _ hv h := exists_monotone_lengthAt hA tolerance hv h
  powerMethod_mono _ hv _ _ hpq _ _ _ _ ha hb := le_of_powerMethod hA hv hpq ha hb
  estimate_mono _ _ hpq := norm_estimate_mono hA tolerance hpq
  annihilated_iff v passes := powerMethod_eq_annihilated_iff hA passes tolerance v
  le_norm _ hpasses _ hseed := length_mulVec_le_norm_estimate hA tolerance hpasses hseed

/-- A matrix that doubles the length of vectors in one direction compared to those at a right
    angle to it, and the estimate from five passes with no tolerance. -/
theorem exists_norm_estimate_twist :
    (∀ w, length (!![3, 4; 2 * 4, -(2 * 3)] *ᵥ w) ≤ 10 * length w) ∧
    (∃ x, (estimate (SparseMatrix.twist (real 3) (real 4)) 5 (.real 0)).norm = .real x ∧
      0 ≤ x ∧ x ≤ 10) ∧
    ∃ k < 5, ∃ f : ℕ → ℝ, Monotone f ∧ ∃ settledAt,
      powerMethod (SparseMatrix.twist (real 3) (real 4)) 5 (.real 0) (Vec.real ![0, 1]) =
        .estimated (.real √(f k)) settledAt := by
  have h := estimate_fromBelow (denotes_twist 3 4) 0
  have hbound : ∀ w, length (!![3, 4; 2 * 4, -(2 * 3)] *ᵥ w) ≤ 10 * length w := by
    intro w
    refine Real.sqrt_le_iff.2 ⟨mul_nonneg (by norm_num) (length_nonneg w), ?_⟩
    rw [mul_pow, sq (length w), length_mul_self]
    simp only [mulVec, dotProduct, Fin.sum_univ_two, of_apply, cons_val_zero, cons_val_one]
    linarith [sq_nonneg (3 * w 0 + 4 * w 1)]
  have hunit : length (![0, 1] : Fin 2 → ℝ) = 1 := by simp [length]
  have himage : !![3, 4; 2 * 4, -(2 * 3)] *ᵥ (![0, 1] : Fin 2 → ℝ) ≠ 0 := by
    intro h0
    have hrow := congrFun h0 0
    simp [mulVec, dotProduct] at hrow
  obtain ⟨f, hf, -, hresult⟩ := h.monotone_lengthAt _ hunit himage
  obtain ⟨k, hk, settledAt, hrun⟩ := hresult 5 (by decide)
  exact ⟨hbound, h.norm_le 10 (by norm_num) hbound 5, k, hk, f, hf, settledAt, hrun⟩

end SpectralNorm

end HybridGradient
