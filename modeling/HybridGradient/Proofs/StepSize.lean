import HybridGradient.Proofs.PowerMethod
import HybridGradient.Proofs.Program

/-!
# When the step size is small enough

The method needs a step size `t` with `t |M w| < |w|` for every vector `w` but zero. The
step size that is chosen without a given one is a little less than the reciprocal of the
estimated norm, and the estimate is never too large. It may be too small by far: the power
method stops as soon as its direction no longer grows differently, and this need not be the
direction of the largest growth.

* `Params.chooseStepSize_eq`: the step size that is chosen, which is infinite if all start
  vectors are annihilated;
* `Params.chooseStepSize_converges_iff`: when exactly it is small enough;
* `exists_lt_chooseStepSize`: a matrix for which it is almost twice as large as it may be.
-/

namespace HybridGradient

open Extended Matrix SpectralNorm Binary64

/-! ### Constants -/

theorem powAux_real (b a : ℝ) (n : ℕ) :
    Scalar.powAux (real b) (real a) n = real (a * b ^ n) := by
  -- Half of the exponent is left to the square, and its last binary digit to `a`.
  induction n using Nat.strong_induction_on generalizing b a with
  | _ n ih =>
    have hsplit : b ^ n = (b * b) ^ (n / 2) * b ^ (n % 2) := by
      rw [← sq, ← pow_mul, ← pow_add, Nat.div_add_mod]
    have hacc : (if n % 2 = 1 then real a * real b else real a) = real (a * b ^ (n % 2)) := by
      rcases Nat.mod_two_eq_zero_or_one n with h | h
      · rw [if_neg (by omega), h, pow_zero, mul_one]
      · rw [if_pos h, h, pow_one, mul_real]
    rw [Scalar.powAux]
    simp only [hacc]
    split
    · rename_i hhalf
      rw [hsplit, hhalf, pow_zero, one_mul]
    · rename_i hhalf
      rw [mul_real, ih (n / 2) (by omega), hsplit, mul_assoc, mul_comm (b ^ _)]

/-- The powers of ten are exact. -/
theorem tenth_real (n : ℕ) : (Scalar.tenth n : Extended) = real (10 ^ n)⁻¹ := by
  have hten : Holds 10 (m := 10 * 2 ^ 49) (e := -49) ⟨by decide, by decide, by decide, by decide⟩ :=
    .of_eq_pack (by decide +kernel)
  have hreal : (Scalar.ofBinary64 10 : Extended) = real 10 := by
    refine hten.ofBinary64.trans ?_
    norm_num
  rw [Scalar.tenth, hreal, one_eq, powAux_real, one_mul, recip_real (by positivity)]

/-- The exact value of the product of step size and estimate, which is 0.99 rounded to
    a multiple of the 53rd power of one half. -/
noncomputable def stepFactor : ℝ := 8917127262193582 / 9007199254740992

theorem stepFactor_pos : 0 < stepFactor := by
  rw [stepFactor]
  positivity

theorem stepFactor_lt_one : stepFactor < 1 := by
  rw [stepFactor]
  norm_num

theorem ofBinary64_stepSizeFactor :
    (Scalar.ofBinary64 stepSizeFactor : Extended) = real stepFactor := by
  have hfactor : Holds stepSizeFactor (m := 8917127262193582) (e := -53)
      ⟨by decide, by decide, by decide, by decide⟩ := .of_eq_pack (by decide +kernel)
  refine hfactor.ofBinary64.trans ?_
  rw [stepFactor]
  norm_num

/-! ### The choice -/

namespace Params

variable {m n : ℕ} {A : SparseMatrix Extended} {M : Matrix (Fin m) (Fin n) ℝ}
  {par : Params Extended}

/-- The step size that is chosen is infinite if every start vector is annihilated.
    Otherwise it comes from the first one that is not, and the pass with which its growth
    settles. -/
theorem chooseStepSize_eq (hA : A.Denotes M) (hM : M ≠ 0) (hstep : par.stepSize = none)
    (hpasses : 0 < par.powerPasses.toNat) {tolerance : ℝ}
    (htol : par.powerTolerance = .real tolerance) :
    (∀ seed < 3, M *ᵥ startDirection n (UInt64.ofNat seed) = 0) ∧
      (par.chooseStepSize A).1 = .top ∨
    ∃ seed k, IsLeast {j | j < 3 ∧ M *ᵥ startDirection n (UInt64.ofNat j) ≠ 0} seed ∧
      IsLeast {i | Settles M (startDirection n (UInt64.ofNat seed)) par.powerPasses.toNat
        tolerance i} k ∧
      (par.chooseStepSize A).1 =
        .real (stepFactor / √(growth M (startDirection n (UInt64.ofNat seed)) k)) := by
  have hshape : ¬ (A.rows = 0 ∨ A.cols = 0) := by
    rw [hA.rows, hA.cols]
    rintro (rfl | rfl)
    · exact hM (Matrix.ext fun i _ => i.elim0)
    · exact hM (Matrix.ext fun _ j => j.elim0)
  have hn : 0 < n := Nat.pos_of_ne_zero fun h => hshape (.inr (hA.cols.trans h))
  have hchoice : (par.chooseStepSize A).1 = .real stepFactor /
      (estimateFrom A par.powerPasses.toNat (.real tolerance) (List.range' 0 3)).norm := by
    rw [chooseStepSize, hstep, ← htol, ← ofBinary64_stepSizeFactor]
    dsimp only
    rw [estimate, if_neg hshape]
    rfl
  rw [hchoice]
  rcases norm_estimateFrom hA hn hpasses tolerance 0 3 with
    ⟨hall, hnorm⟩ | ⟨seed, k, hseed, hk, hnorm⟩
  · refine .inl ⟨fun seed hlt => hall seed (Nat.zero_le _) hlt, ?_⟩
    rw [hnorm, Extended.div_zero, sign_pos stepFactor_pos]
    rfl
  · simp only [Nat.zero_le, true_and, Nat.zero_add] at hseed
    have hsqrt := Real.sqrt_pos.2 (growth_pos hseed.1.2 k)
    exact .inr ⟨seed, k, hseed, hk, by rw [hnorm, div_real _ hsqrt.ne']⟩

/-- An infinite step size is never small enough. -/
theorem not_top_mul_lt {a : ℝ} (ha : 0 ≤ a) (b : ℝ) : ¬ (.top * .real a : Extended) < .real b := by
  change ¬ infinite (1 * SignType.sign a) < .real b
  rcases ha.eq_or_lt with rfl | ha
  · rw [sign_zero, mul_zero]
    exact id
  · rw [sign_pos ha, mul_one]
    exact id

theorem exists_mulVec_ne_zero (hM : M ≠ 0) : ∃ w, M *ᵥ w ≠ 0 := by
  by_contra hnone
  push Not at hnone
  refine hM (Matrix.ext fun i j => ?_)
  have h := congrFun (hnone (Pi.single j 1)) i
  rwa [mulVec_single_one] at h

/-- The step size that is chosen under the default parameters is positive, and no smaller
    than the documented one: some vector shows this. It is small enough exactly if the
    growth in the pass with which the power method settles, from the first of the three
    start vectors that is not annihilated, falls short of the square of the norm by less
    than the square of the safety factor. -/
theorem chooseStepSize_converges_iff (hA : A.Denotes M) (hM : M ≠ 0) (hstep : par.stepSize = none)
    (hpasses : par.powerPasses = 1000) (htol : par.powerTolerance = Scalar.tenth 8) :
    0 < (par.chooseStepSize A).1 ∧
    (∃ w : Fin n → ℝ, w ≠ 0 ∧ .real (stepFactor * length w) ≤
      (par.chooseStepSize A).1 * .real (length (M *ᵥ w))) ∧
    ((∀ w : Fin n → ℝ, w ≠ 0 →
        (par.chooseStepSize A).1 * .real (length (M *ᵥ w)) < .real (length w)) ↔
      ∃ seed k, IsLeast {j | j < 3 ∧ M *ᵥ startDirection n (UInt64.ofNat j) ≠ 0} seed ∧
        IsLeast {i | Settles M (startDirection n (UInt64.ofNat seed)) 1000 (10 ^ 8)⁻¹ i} k ∧
        ∀ w : Fin n → ℝ, w ≠ 0 → stepFactor * length (M *ᵥ w) <
          √(growth M (startDirection n (UInt64.ofNat seed)) k) * length w) := by
  have hcount : par.powerPasses.toNat = 1000 := by rw [hpasses]; rfl
  have hchoice := chooseStepSize_eq hA hM hstep (by rw [hcount]; decide)
    (htol.trans (tenth_real 8))
  rw [hcount] at hchoice
  rcases hchoice with ⟨hall, htop⟩ | ⟨seed, k, hseed, hk, hreal⟩
  · -- All start vectors are annihilated, and the step size is infinite.
    obtain ⟨w, hw⟩ := exists_mulVec_ne_zero hM
    have hw0 : w ≠ 0 := fun h => hw (by rw [h, mulVec_zero])
    rw [htop]
    refine ⟨trivial, ⟨w, hw0, ?_⟩, fun h => absurd (h w hw0) (not_top_mul_lt (length_nonneg _) _),
      fun ⟨seed, _, hseed, _⟩ => absurd (hall seed hseed.1.1) hseed.1.2⟩
    have hmul : (.top * .real (length (M *ᵥ w)) : Extended) = .top :=
      congrArg (fun s => infinite (1 * s)) (sign_pos (length_pos.2 hw))
    rw [hmul]
    exact .inl trivial
  · have hsqrt := Real.sqrt_pos.2 (growth_pos hseed.1.2 k)
    rw [hreal]
    refine ⟨zero_lt_real.2 (div_pos stepFactor_pos hsqrt), ?_,
      fun h => ⟨seed, k, hseed, hk, ?_⟩, ?_⟩
    · obtain ⟨w, hw, hle⟩ := exists_growth_le hseed.1.2 k
      refine ⟨w, hw, ?_⟩
      rw [mul_real, real_le_real, div_mul_eq_mul_div, le_div_iff₀ hsqrt, mul_assoc, mul_comm _ √_]
      exact mul_le_mul_of_nonneg_left hle stepFactor_pos.le
    · intro w hw
      have hlt := h w hw
      rwa [mul_real, real_lt_real, div_mul_eq_mul_div, div_lt_iff₀ hsqrt, mul_comm _ √_] at hlt
    · rintro ⟨seed', k', hseed', hk', hall⟩ w hw
      obtain rfl := hseed.unique hseed'
      obtain rfl := hk.unique hk'
      rw [mul_real, real_lt_real, div_mul_eq_mul_div, div_lt_iff₀ hsqrt, mul_comm _ √_]
      exact hall w hw

theorem denotes_single :
    (Problem.single Extended).matrix.Denotes (1 : Matrix (Fin 1) (Fin 1) ℝ) := by
  have hsum : (1 : Matrix (Fin 1) (Fin 1) ℝ) =
      Matrix.of fun (i j : Fin 1) => Entry.sumAt [⟨0, 0, (1 : Extended)⟩] i j := by
    ext i j
    fin_cases i
    fin_cases j
    simp [Entry.sumAt, Entry.valueAt, one_eq]
  rw [hsum]
  exact SparseMatrix.denotes_ofEntries (by simp) (by simp [one_eq])

/-- For the matrix with the one entry one, the step size is small enough. -/
theorem chooseStepSize_single :
    0 < ((default : Params Extended).chooseStepSize (Problem.single Extended).matrix).1 ∧
    ∀ w : Fin 1 → ℝ, w ≠ 0 →
      ((default : Params Extended).chooseStepSize (Problem.single Extended).matrix).1 *
        .real (length ((1 : Matrix (Fin 1) (Fin 1) ℝ) *ᵥ w)) < .real (length w) := by
  have hstep : (default : Params Extended).stepSize = none := rfl
  obtain ⟨hpos, -, hiff⟩ := chooseStepSize_converges_iff denotes_single one_ne_zero hstep rfl rfl
  refine ⟨hpos, hiff.2 ?_⟩
  have hs : startDirection 1 (UInt64.ofNat 0) ≠ 0 := startDirection_ne_zero one_pos _
  have hsettles : ∃ i, Settles (1 : Matrix (Fin 1) (Fin 1) ℝ) (startDirection 1 (UInt64.ofNat 0))
      1000 (10 ^ 8)⁻¹ i := ⟨999, .inl rfl⟩
  classical
  refine ⟨0, Nat.find hsettles, ⟨⟨by decide, by rwa [one_mulVec]⟩, fun _ _ => Nat.zero_le _⟩,
    ⟨Nat.find_spec hsettles, fun j hj => Nat.find_min' hsettles hj⟩, fun w hw => ?_⟩
  rw [growth_of_eigenvector one_pos hs (by simp [gramMatrix]), Real.sqrt_one, one_mulVec]
  exact mul_lt_mul_of_pos_right stepFactor_lt_one (length_pos.2 hw)

end Params

/-! ### A step size that is too large -/

/-- The matrix whose first row is a vector, and whose second row is twice that vector,
    turned by a right angle. -/
def SparseMatrix.twist {α : Type} [Scalar α] (x y : α) : SparseMatrix α :=
  .ofEntries 2 2 .byColumn [⟨0, 0, x⟩, ⟨0, 1, y⟩, ⟨1, 0, (1 + 1) * y⟩, ⟨1, 1, -((1 + 1) * x)⟩]
    (by simp)

theorem denotes_twist (x y : ℝ) :
    (SparseMatrix.twist (real x) (real y)).Denotes !![x, y; 2 * y, -(2 * x)] := by
  have htwo : (1 + 1 : Extended) = real 2 := by
    rw [one_eq, add_real]
    norm_num
  have hreal : ∀ e ∈ ([⟨0, 0, real x⟩, ⟨0, 1, real y⟩, ⟨1, 0, (1 + 1) * real y⟩,
      ⟨1, 1, -((1 + 1) * real x)⟩] : List (Entry Extended)), Scalar.isFinite e.value = true := by
    simp [htwo]
  have hsum : !![x, y; 2 * y, -(2 * x)] = Matrix.of fun (i j : Fin 2) => Entry.sumAt
      [⟨0, 0, real x⟩, ⟨0, 1, real y⟩, ⟨1, 0, (1 + 1) * real y⟩,
        ⟨1, 1, -((1 + 1) * real x)⟩] i j := by
    ext i j
    fin_cases i <;> fin_cases j <;> simp [Entry.sumAt, Entry.valueAt, htwo]
  rw [hsum]
  exact SparseMatrix.denotes_ofEntries _ hreal

/-- The first row of the matrix is an eigenvector, but not the one of the greatest
    eigenvalue. -/
theorem gramMatrix_twist (s : Fin 2 → ℝ) :
    gramMatrix !![s 0, s 1; 2 * s 1, -(2 * s 0)] *ᵥ s = (s ⬝ᵥ s) • s := by
  rw [gramMatrix_mulVec]
  funext j
  fin_cases j <;> simp [mulVec, dotProduct, Fin.sum_univ_two] <;> ring

/-- A vector turned by a right angle keeps its length, and the matrix doubles the length of
    its product with the first row. -/
theorem length_turn (s : Fin 2 → ℝ) :
    length ![s 1, -s 0] = length s ∧
      length (!![s 0, s 1; 2 * s 1, -(2 * s 0)] *ᵥ ![s 1, -s 0]) =
        2 * (length s * length s) := by
  constructor
  · simp [length, dotProduct, Fin.sum_univ_two, add_comm]
  · have himage : !![s 0, s 1; 2 * s 1, -(2 * s 0)] *ᵥ ![s 1, -s 0] = ![0, 2 * (s ⬝ᵥ s)] := by
      funext i
      fin_cases i <;> simp [mulVec, dotProduct, Fin.sum_univ_two] <;> ring
    have hnonneg : 0 ≤ 2 * (s ⬝ᵥ s) := mul_nonneg zero_le_two (dotProduct_self_nonneg s)
    rw [length_mul_self, himage, length, ← Real.sqrt_mul_self hnonneg]
    simp

/-- With the first start vector as its first row, the matrix gets the step size that fits
    to this row alone. -/
theorem chooseStepSize_twist {s : Fin 2 → ℝ} (hs : startDirection 2 0 = s) :
    ((default : Params Extended).chooseStepSize
      (SparseMatrix.twist (real (s 0)) (real (s 1)))).1 = real (stepFactor / length s) := by
  have hne : s ≠ 0 := hs ▸ startDirection_ne_zero two_pos 0
  have hself : 0 < s ⬝ᵥ s := by
    rw [← length_mul_self]
    exact mul_pos (length_pos.2 hne) (length_pos.2 hne)
  have hseed : startDirection 2 (UInt64.ofNat 0) = s := hs
  have hMs : !![s 0, s 1; 2 * s 1, -(2 * s 0)] *ᵥ startDirection 2 (UInt64.ofNat 0) ≠ 0 := by
    rw [hseed]
    intro h
    refine hself.ne' ?_
    have hrow := congrFun h 0
    simpa [mulVec, dotProduct, Fin.sum_univ_two] using hrow
  have hM : !![s 0, s 1; 2 * s 1, -(2 * s 0)] ≠ 0 := fun h => hMs (by rw [h, zero_mulVec])
  have hstep : (default : Params Extended).stepSize = none := rfl
  rcases Params.chooseStepSize_eq (denotes_twist (s 0) (s 1)) hM hstep (by decide)
    (tenth_real 8) with ⟨hall, -⟩ | ⟨seed, k, hleast, -, hchoice⟩
  · exact absurd (hall 0 (by decide)) hMs
  · obtain rfl : seed = 0 := Nat.le_zero.1 (hleast.2 ⟨by decide, hMs⟩)
    rw [hchoice, hseed, growth_of_eigenvector hself hne (gramMatrix_twist s), ← length]

/-- With the components of the first start vector, the power method settles on the first
    row of the matrix. The step size is then almost twice as large as it may be, as a
    vector at a right angle to that row shows. -/
theorem exists_lt_chooseStepSize :
    ∃ M : Matrix (Fin 2) (Fin 2) ℝ,
      (SparseMatrix.twist (Scalar.ofBinary64 (startComponent 0 0))
        (Scalar.ofBinary64 (startComponent 0 1)) : SparseMatrix Extended).Denotes M ∧ M ≠ 0 ∧
      ∃ w : Fin 2 → ℝ, w ≠ 0 ∧ .real (length w) <
        ((default : Params Extended).chooseStepSize
          (SparseMatrix.twist (Scalar.ofBinary64 (startComponent 0 0))
            (Scalar.ofBinary64 (startComponent 0 1)))).1 * .real (length (M *ᵥ w)) := by
  have hx : (Scalar.ofBinary64 (startComponent 0 0) : Extended) = real (startDirection 2 0 0) :=
    ofBinary64_startComponent_eq 0 (0 : Fin 2)
  have hy : (Scalar.ofBinary64 (startComponent 0 1) : Extended) = real (startDirection 2 0 1) :=
    ofBinary64_startComponent_eq 0 (1 : Fin 2)
  have hs : startDirection 2 0 ≠ 0 := startDirection_ne_zero two_pos 0
  rw [hx, hy]
  generalize hdir : startDirection 2 0 = s at hs
  obtain ⟨hlength, himage⟩ := length_turn s
  have hpos := length_pos.2 hs
  refine ⟨_, denotes_twist _ _, fun h => ?_, ![s 1, -s 0], length_pos.1 (hlength ▸ hpos), ?_⟩
  · rw [h, zero_mulVec, length_eq_zero.2 rfl] at himage
    exact (mul_pos two_pos (mul_pos hpos hpos)).ne himage
  · have hhalf : 1 < 2 * stepFactor := by
      rw [stepFactor]
      norm_num
    have hproduct : stepFactor / length s * (2 * (length s * length s)) =
        2 * stepFactor * length s := by
      field_simp
    rw [chooseStepSize_twist hdir, hlength, himage, mul_real, real_lt_real, hproduct]
    exact lt_mul_of_one_lt_left hpos hhalf

end HybridGradient
