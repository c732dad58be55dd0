import HybridGradient.Proofs.ModerateMatrix
import HybridGradient.Proofs.NormalizedVectors

/-!
# The power method within the range of a format

Under a matrix with moderate coefficients and not too many rows and columns, no vector that the
power method works on leaves the range of the format. Each pass finds a positive number as the
norm, or zero, and the method is left with a positive estimate unless it meets a vector that the
matrix annihilates. If no coefficient is negative and one of them is not zero, it does not meet
one: the vectors have no negative components, and after a pass the greatest component still
meets a coefficient other than zero.

* `SparseMatrix.Temperate`: the matrices in question;
* `SpectralNorm.isPositive_powerMethodFrom`: what the power method finds for them;
* `SpectralNorm.Alive`, `SpectralNorm.Alive.normalized_gram`: an invariant of a pass for
  coefficients that are not negative;
* `SpectralNorm.Alive.powerMethodFrom_ne`, `SpectralNorm.alive_startVector`: no start vector is
  annihilated by them.
-/

namespace HybridGradient

open Extended Binary Rounding Float.Model

/-! ### Moderate matrices -/

section

variable {α : Type} [Binary α]

/-- A matrix with moderate coefficients and not too many rows and columns. What a pass of the
    power method adds up is then in the range of the format. -/
structure SparseMatrix.Temperate (A : SparseMatrix α) (h q : ℕ) : Prop where
  moderate : A.Moderate h
  rows_le : A.rows ≤ 2 ^ q
  cols_le : A.cols ≤ 2 ^ q
  digits : q ≤ (format α).mantissaBitsWithoutImplicit
  range : 4 * h + 5 * q + 2 ≤ (format α).exponentBias

theorem SparseMatrix.Moderate.two_pow_le {A : SparseMatrix α} {h : ℕ} (hA : A.Moderate h)
    {e : Entry α} (he : e ∈ A.entries) : ∃ a, value e.value = .real a ∧ |a| ≤ 2 ^ (h : ℤ) ∧
      (a ≠ 0 → 2 ^ (-h : ℤ) ≤ |a|) := by
  obtain ⟨a, ha, hlog⟩ := hA e he
  refine ⟨a, ha, ?_⟩
  rcases eq_or_ne a 0 with rfl | hne
  · exact ⟨by rw [abs_zero]; positivity, fun h0 => absurd rfl h0⟩
  · obtain ⟨hge, hle⟩ := abs_le.1 (hlog.resolve_left hne)
    rw [lg_eq ha, ← Real.logb_abs] at hge hle
    have hpos := abs_pos.2 hne
    rw [Real.logb_le_iff_le_rpow one_lt_two hpos, Real.rpow_natCast] at hle
    rw [Real.le_logb_iff_rpow_le one_lt_two hpos, Real.rpow_neg zero_le_two,
      Real.rpow_natCast] at hge
    rw [zpow_neg, zpow_natCast]
    exact ⟨hle, fun _ => hge⟩

namespace SparseMatrix.Temperate

variable {A : SparseMatrix α} {h q : ℕ} (hA : A.Temperate h q)

include hA

theorem within {e : Entry α} (he : e ∈ A.entries) : Within (2 ^ (h : ℤ)) e.value := by
  obtain ⟨a, ha, hle, -⟩ := hA.moderate.two_pow_le he
  exact ⟨a, ha, hle⟩

/-- What is added up for the image of a vector within two under the matrix, under its transpose
    after that, and for the norm of what comes out. -/
theorem sumRange {k : ℤ} (hk : 0 ≤ k) (hkq : k ≤ 4 * h + 4 * q + 2) :
    SumRange (format α) k q := by
  have hrange := hA.range
  have hmin := minExponent_nonpos (format α)
  exact ⟨by omega, by omega, hA.digits⟩

end SparseMatrix.Temperate

end

namespace SpectralNorm

variable {α : Type} [Binary α] [Scalar α] [ConvertingBinary α] {A : SparseMatrix α} {h q : ℕ}

section

variable (hA : A.Temperate h q) {v : Vec α} (hv : v.Within (2 ^ (1 : ℤ)))

include hA hv

theorem within_product :
    (A.product 1 v 0 (Vec.zeros A.rows)).Within (2 ^ (h + 1 + q : ℤ)) :=
  SparseMatrix.within_accumulate (fun _ he => hA.within he) hv (hA.sumRange (by omega) (by omega))
    (fun i => (A.length_row_le i).trans hA.cols_le) _

theorem within_gram : (gram A v).Within (2 ^ (h + (h + 1 + q) + q : ℤ)) :=
  SparseMatrix.within_accumulate (fun _ he => hA.within he) (within_product hA hv)
    (hA.sumRange (by omega) (by omega)) (fun j => (A.length_col_le j).trans hA.rows_le) _

/-- A pass of the power method at a vector within two: the matrix annihilates it, or the norm is
    positive and the next vector is within two as well. -/
theorem norm_gram_cases : value (Vec.norm (gram A v)) = .real 0 ∨
    IsPositive (Vec.norm (gram A v)) ∧ (Vec.normalized (gram A v)).Within (2 ^ (1 : ℤ)) := by
  have hsize : (gram A v).size ≤ 2 ^ q := (size_gram A v).trans_le hA.cols_le
  have hgram := within_gram hA hv
  have hrange : SumRange (format α) ((h + (h + 1 + q) + q) + (h + (h + 1 + q) + q)) q :=
    hA.sumRange (by omega) (by omega)
  refine (Vec.norm_cases hgram hrange hsize).imp_right fun hpos => ?_
  exact ⟨hpos.sqrt, (Vec.within_normalized hgram hrange hsize hpos).1⟩

/-- What the power method finds from a vector within two is positive. -/
theorem isPositive_powerMethodFrom {tolerance : α} {remaining i : ℕ} {square norm : α}
    {settledAt : Option ℕ} (h0 : 0 < remaining ∨ IsPositive (Scalar.sqrt square))
    (hfound : powerMethodFrom A tolerance remaining i v square = .estimated norm settledAt) :
    IsPositive norm := by
  induction remaining generalizing i v square with
  | zero =>
    obtain ⟨rfl, -⟩ := Outcome.estimated.inj hfound
    exact h0.resolve_left (lt_irrefl 0)
  | succ remaining ih =>
    rw [powerMethodFrom] at hfound
    rcases norm_gram_cases hA hv with hzero | ⟨hpos, hnext⟩
    · rw [if_pos (beq_iff.2 ⟨hzero.trans value_zero.symm, by rw [hzero]; nofun⟩)] at hfound
      exact nomatch hfound
    · rw [if_neg hpos.ne_zero, if_neg (not_not.2 hpos.pos)] at hfound
      split at hfound
      · obtain ⟨rfl, -⟩ := Outcome.estimated.inj hfound
        exact hpos.sqrt
      · exact ih hnext (.inr hpos.sqrt) hfound

end

/-- A start vector is within two, and none of its components is small. -/
theorem startVector_bounds (hA : A.Temperate h q) (hcols : 0 < A.cols) (seed : UInt64) :
    (startVector A.cols seed : Vec α).Within (2 ^ (1 : ℤ)) ∧ ∀ j < A.cols,
      AtLeast (2 ^ (-1 - (1 + q) : ℤ)) ((startVector A.cols seed : Vec α).getD j 0) := by
  have hrange := hA.range
  have hbits := ConvertingBinary.mantissaBits_le_exponentBias (α := α)
  have hdigits := le_mantissaBits (α := α)
  have hexponent := minExponent_eq (format α)
  have hwithin := within_startRaw (α := α) A.cols seed
  have hsum : SumRange (format α) (1 + 1) q := hA.sumRange (by omega) (by omega)
  have hsize : (startRaw α A.cols seed).size ≤ 2 ^ q :=
    Array.size_ofFn.trans_le hA.cols_le
  have hle {j : ℕ} (hj : j < A.cols) :
      AtLeast (2 ^ (-1 : ℤ)) ((startRaw α A.cols seed).getD j 0) := by
    obtain ⟨a, ha, hle, -⟩ := exists_value_startRaw (α := α) hj seed
    exact ⟨a, ha, hle⟩
  have hpos := Vec.isPositive_inner hwithin hsum hsize (hle hcols) (by omega)
  obtain ⟨hnormalized, -, hlarge⟩ := Vec.within_normalized hwithin hsum hsize hpos
  exact ⟨hnormalized, fun j hj => hlarge j (-1) (hle hj) (by omega)⟩

end SpectralNorm

/-! ### Coefficients that are not negative -/

section

variable {α : Type} [Binary α] [Scalar α] [LawfulBinary α]

/-- The greatest component of a vector without negative components, between two powers of two. -/
theorem Vec.Within.exists_greatest {w : Vec α} {l m : ℤ} (hw : w.Within (2 ^ l)) (hw0 : w.Nonneg)
    {i : ℕ} (hi : AtLeast (2 ^ m) (w.getD i 0)) :
    ∃ j k, w.Within (2 ^ k) ∧ AtLeast (2 ^ (k - 1)) (w.getD j 0) ∧ k ≤ l ∧ m ≤ k := by
  have hvalue (j : ℕ) : ∃ a, value (w.getD j 0) = .real a ∧ 0 ≤ a ∧ a ≤ 2 ^ l := by
    obtain ⟨a, ha, hle⟩ := hw j
    obtain ⟨a', ha', hnonneg⟩ := hw0 j
    obtain rfl := Extended.real_injective (ha.symm.trans ha')
    exact ⟨a, ha, hnonneg, (le_abs_self a).trans hle⟩
  choose a ha hnonneg hle using hvalue
  obtain ⟨b, hb, hmb⟩ := hi
  obtain rfl := Extended.real_injective (hb.symm.trans (ha i))
  -- Beyond the size of the vector there are zeros only.
  obtain ⟨j, -, hj⟩ := Finset.exists_max_image (Finset.range (max w.size (i + 1))) a
    ⟨i, Finset.mem_range.2 (by omega)⟩
  have hmax (j' : ℕ) : a j' ≤ a j := by
    rcases Nat.lt_or_ge j' (max w.size (i + 1)) with hlt | hge
    · exact hj j' (Finset.mem_range.2 hlt)
    · have h0 := ha j'
      rw [getD_of_size_le (by omega), value_zero] at h0
      rw [← Extended.real_injective h0]
      exact hnonneg j
  have hpos : 0 < a j := ((by positivity : (0 : ℝ) < 2 ^ m).trans_le hmb).trans_le (hmax i)
  have hself := Int.self_le_zpow_clog (R := ℝ) one_lt_two (a j)
  have hpred := Int.zpow_pred_clog_lt_self (R := ℝ) one_lt_two hpos
  push_cast at hself hpred
  generalize Int.clog 2 (a j) = k at hself hpred
  refine ⟨j, k, fun j' => ⟨a j', ha j', ?_⟩, ⟨a j, ha j, hpred.le⟩, ?_, ?_⟩
  · rw [abs_of_nonneg (hnonneg j')]
    exact (hmax j').trans hself
  · have hlt := (zpow_lt_zpow_iff_right₀ one_lt_two).1 (hpred.trans_le (hle j))
    omega
  · exact (zpow_le_zpow_iff_right₀ one_lt_two).1 ((hmb.trans (hmax i)).trans hself)

end

namespace SpectralNorm

variable {α : Type} [Binary α] [Scalar α] [ConvertingBinary α] {A : SparseMatrix α} {h q : ℕ}

/-- A vector of numbers that are not negative. One of them is not small, and meets a coefficient
    other than zero. -/
structure Alive (A : SparseMatrix α) (q : ℕ) (v : Vec α) : Prop where
  within : v.Within (2 ^ (1 : ℤ))
  nonneg : v.Nonneg
  exists_entry : ∃ e ∈ A.entries, value e.value ≠ .real 0 ∧
    AtLeast (2 ^ (-1 - (1 + q) : ℤ)) (v.getD e.col 0)

section

variable (hA : A.Temperate h q) (hA0 : ∀ e ∈ A.entries, AtLeast 0 e.value) {v : Vec α}

include hA hA0

omit [Scalar α] [ConvertingBinary α] in
theorem atLeast_entry {e : Entry α} (he : e ∈ A.entries) (hne : value e.value ≠ .real 0) :
    AtLeast (2 ^ (-h : ℤ)) e.value := by
  obtain ⟨a, ha, -, hle⟩ := hA.moderate.two_pow_le he
  obtain ⟨a', ha', hnonneg⟩ := hA0 e he
  obtain rfl := real_injective (ha.symm.trans ha')
  have h0 : a ≠ 0 := fun h0 => hne (h0 ▸ ha)
  exact ⟨a, ha, (hle h0).trans_eq (abs_of_nonneg hnonneg)⟩

theorem nonneg_product (hv : v.Within (2 ^ (1 : ℤ))) (hv0 : v.Nonneg) :
    (A.product 1 v 0 (Vec.zeros A.rows)).Nonneg :=
  SparseMatrix.nonneg_accumulate (fun _ he => hA.within he) hv
    (hA.sumRange (by omega) (by omega)) (fun i => (A.length_row_le i).trans hA.cols_le) hA0 hv0 _

theorem nonneg_gram (hv : v.Within (2 ^ (1 : ℤ))) (hv0 : v.Nonneg) : (gram A v).Nonneg :=
  SparseMatrix.nonneg_accumulate (fun _ he => hA.within he) (within_product hA hv)
    (hA.sumRange (by omega) (by omega)) (fun j => (A.length_col_le j).trans hA.rows_le) hA0
    (nonneg_product hA hA0 hv hv0) _

/-- What is not small before a pass is not small after it. -/
theorem atLeast_gram (hv : v.Within (2 ^ (1 : ℤ))) (hv0 : v.Nonneg) {e : Entry α}
    (he : e ∈ A.entries) (hne : value e.value ≠ .real 0) {i : ℤ}
    (hi : AtLeast (2 ^ i) (v.getD e.col 0)) (hmin : (format α).minExponent ≤ i - 2 * h)
    (hmax : i ≤ (format α).exponentBias) :
    AtLeast (2 ^ (-h + (-h + i))) ((gram A v).getD e.col 0) := by
  have hentry := atLeast_entry hA hA0 he hne
  have hproduct := SparseMatrix.atLeast_accumulate (fun _ he => hA.within he) hv
    (hA.sumRange (by omega) (by omega)) (fun i => (A.length_row_le i).trans hA.cols_le) hA0 hv0
    he (A.inBounds e he).1 hentry hi (by omega) (by omega)
  exact SparseMatrix.atLeast_accumulate (fun _ he => hA.within he) (within_product hA hv)
    (hA.sumRange (by omega) (by omega)) (fun j => (A.length_col_le j).trans hA.rows_le) hA0
    (nonneg_product hA hA0 hv hv0) he (A.inBounds e he).2 hentry hproduct (by omega) (by omega)

omit hA0 in
/-- A component of an image that is not zero meets a coefficient that is not zero either. -/
theorem exists_entry_of_gram (hv : v.Within (2 ^ (1 : ℤ))) {j : ℕ}
    (hj : value ((gram A v).getD j 0) ≠ .real 0) :
    ∃ e ∈ A.entries, e.col = j ∧ value e.value ≠ .real 0 := by
  by_contra! hnone
  refine hj ?_
  rw [gram, SparseMatrix.transposeProduct, SparseMatrix.getD_accumulate_zeros]
  by_cases hlt : j < A.cols
  · rw [if_pos hlt]
    refine SparseMatrix.value_lineSum_eq_zero hnone fun i => ?_
    obtain ⟨a, ha, -⟩ := within_product hA hv i
    exact ⟨a, ha⟩
  · rw [if_neg hlt]
    exact value_zero

/-- A pass of the power method at a vector that is alive finds a positive norm, and goes on at
    another such vector. -/
theorem Alive.normalized_gram (hv : Alive A q v) :
    IsPositive (Vec.inner (gram A v) (gram A v)) ∧ Alive A q (Vec.normalized (gram A v)) := by
  have hrange := hA.range
  have hbits := ConvertingBinary.mantissaBits_le_exponentBias (α := α)
  have hdigits := le_mantissaBits (α := α)
  have hexponent := minExponent_eq (format α)
  obtain ⟨e, he, hne, hlarge⟩ := hv.exists_entry
  have hgram := atLeast_gram hA hA0 hv.within hv.nonneg he hne hlarge (by omega) (by omega)
  have hgram0 := nonneg_gram hA hA0 hv.within hv.nonneg
  obtain ⟨j, k, hwithin, hj, hmax, hmin⟩ :=
    (within_gram hA hv.within).exists_greatest hgram0 hgram
  obtain ⟨e', he', rfl, hne'⟩ := exists_entry_of_gram hA hv.within (j := j) fun h0 => by
    obtain ⟨a, ha, hle⟩ := hj
    rw [real_injective (ha.symm.trans h0)] at hle
    exact hle.not_gt (by positivity)
  have hsum : SumRange (format α) (k + k) q := ⟨by omega, by omega, hA.digits⟩
  have hsize : (gram A v).size ≤ 2 ^ q := (size_gram A v).trans_le hA.cols_le
  have hpos := Vec.isPositive_inner hwithin hsum hsize hj (by omega)
  obtain ⟨hnormalized, hnonneg, hlarge'⟩ := Vec.within_normalized hwithin hsum hsize hpos
  exact ⟨hpos, hnormalized, hnonneg hgram0, e', he', hne',
    (hlarge' _ _ hj (by omega)).mono (zpow_le_zpow_right₀ one_le_two (by omega))⟩

end

/-- Coefficients that are not negative, and not all zero, do not annihilate a vector that is
    alive, in however many passes. -/
theorem Alive.powerMethodFrom_ne (hA : A.Temperate h q)
    (hA0 : ∀ e ∈ A.entries, AtLeast 0 e.value) {v : Vec α} (hv : Alive A q v) {tolerance : α}
    (remaining i : ℕ) (square : α) :
    powerMethodFrom A tolerance remaining i v square ≠ .annihilated := by
  induction remaining generalizing i v square with
  | zero => nofun
  | succ remaining ih =>
    obtain ⟨hpos, hnext⟩ := hv.normalized_gram hA hA0
    have hne : ¬ (Vec.norm (gram A v) == 0) = true := hpos.sqrt.ne_zero
    rw [powerMethodFrom, if_neg hne]
    split
    · nofun
    · split
      · nofun
      · exact ih hnext _ _

theorem alive_startVector (hA : A.Temperate h q)
    (hne : ∃ e ∈ A.entries, value e.value ≠ .real 0) (seed : UInt64) :
    Alive A q (startVector A.cols seed) := by
  obtain ⟨e, he, hne⟩ := hne
  have hcol := (A.inBounds e he).2
  obtain ⟨hwithin, hlarge⟩ := startVector_bounds hA (Nat.zero_lt_of_lt hcol) seed
  refine ⟨hwithin, fun j => ?_, e, he, hne, hlarge _ hcol⟩
  by_cases hj : j < A.cols
  · exact (hlarge j hj).mono (by positivity)
  · rw [Vec.getD_of_size_le]
    · exact ⟨0, value_zero, le_rfl⟩
    · rw [startVector, Vec.size_scale, Array.size_ofFn]
      exact not_lt.1 hj

end SpectralNorm

end HybridGradient
