import HybridGradient.Proofs.EntryOrder
import HybridGradient.Proofs.RealMatrix
import HybridGradient.Proofs.Run
import HybridGradient.Scalar.Binary

/-!
# Products with a matrix made from triplets

A matrix is made from triplets in any order and with any number of them at one position. In real
numbers, what it is to a product is the dense matrix of their sums, however its entries are
stored. The product with the transpose goes through the same entries and exchanges what is read
with what is written, so it is the one with the transposed matrix, and each of the two is the
adjoint of the other.

Nothing of this is true where numbers are rounded. What is left then is that a multiple by zero
overwrites: the vector that is given for it might hold anything.

* `SparseMatrix.product?_overwrites`: products with a zero, in any arithmetic;
* `SparseMatrix.Denotes.product?_eq`, `SparseMatrix.Denotes.adjoint`: products in real numbers;
* `SparseMatrix.products_ofTriplets?`: all of this for the matrix of a list of triplets.
-/

namespace HybridGradient

open Extended Matrix

namespace SparseMatrix

/-! ### Overwriting -/

section

variable {α : Type} [Scalar α] (A : SparseMatrix α) (alpha : α) (x : Vec α) {beta : α}
  {y y' : Vec α}

theorem preset_overwrites (hbeta : (beta == 0) = true) (hsize : y.size = y'.size) :
    preset beta y = preset beta y' := by
  rw [preset, preset, if_pos hbeta, if_pos hbeta, hsize]

/-- With a multiple by zero, a product does not depend on the vector that is multiplied. Where the
    lengths do not fit, it fails in the same way. -/
theorem product?_overwrites (hbeta : (beta == 0) = true) (hsize : y.size = y'.size) :
    A.product? alpha x beta y = A.product? alpha x beta y' := by
  rw [product?, product?, product, product, preset_overwrites hbeta hsize, hsize]

theorem transposeProduct?_overwrites (hbeta : (beta == 0) = true) (hsize : y.size = y'.size) :
    A.transposeProduct? alpha x beta y = A.transposeProduct? alpha x beta y' := by
  rw [transposeProduct?, transposeProduct?, transposeProduct, transposeProduct,
    preset_overwrites hbeta hsize, hsize]

end

/-! ### Real numbers -/

variable {m n : ℕ} {A : SparseMatrix Extended} {M : Matrix (Fin m) (Fin n) ℝ}

theorem Denotes.product?_eq (h : A.Denotes M) (a b : ℝ) (x : Fin n → ℝ) (y : Fin m → ℝ) :
    A.product? (.real a) (Vec.real x) (.real b) (Vec.real y) =
      .ok (Vec.real (a • (M *ᵥ x) + b • y)) := by
  rw [product?, h.rows, h.cols, Vec.size_real, Vec.size_real, Fault.checkLength_self,
    Fault.checkLength_self, h.product, add_comm]
  rfl

theorem Denotes.transposeProduct?_eq (h : A.Denotes M) (a b : ℝ) (x : Fin m → ℝ)
    (y : Fin n → ℝ) :
    A.transposeProduct? (.real a) (Vec.real x) (.real b) (Vec.real y) =
      .ok (Vec.real (a • (Mᵀ *ᵥ x) + b • y)) := by
  rw [transposeProduct?, h.rows, h.cols, Vec.size_real, Vec.size_real, Fault.checkLength_self,
    Fault.checkLength_self, h.transposeProduct, add_comm]
  rfl

/-- A product that is not added to anything, in the place of a vector of whatever values. -/
theorem Denotes.product?_single (h : A.Denotes M) (x : Fin n → ℝ) {y : Vec Extended}
    (hy : y.size = m) : A.product? 1 (Vec.real x) 0 y = .ok (Vec.real (M *ᵥ x)) := by
  have hzero : ((0 : Extended) == 0) = true := real_beq_zero.2 rfl
  have hsize : y.size = (Vec.real (0 : Fin m → ℝ)).size := hy.trans (Vec.size_real _).symm
  rw [A.product?_overwrites 1 _ hzero hsize, one_eq, zero_eq, h.product?_eq, one_smul, smul_zero,
    add_zero]

theorem Denotes.transposeProduct?_single (h : A.Denotes M) (x : Fin m → ℝ) {y : Vec Extended}
    (hy : y.size = n) : A.transposeProduct? 1 (Vec.real x) 0 y = .ok (Vec.real (Mᵀ *ᵥ x)) := by
  have hzero : ((0 : Extended) == 0) = true := real_beq_zero.2 rfl
  have hsize : y.size = (Vec.real (0 : Fin n → ℝ)).size := hy.trans (Vec.size_real _).symm
  rw [A.transposeProduct?_overwrites 1 _ hzero hsize, one_eq, zero_eq, h.transposeProduct?_eq,
    one_smul, smul_zero, add_zero]

theorem inner?_real (x y : Fin n → ℝ) :
    Vec.inner? (Vec.real x) (Vec.real y) = .ok (.real (x ⬝ᵥ y)) := by
  rw [Vec.inner?, Vec.size_real, Vec.size_real, Fault.checkLength_self, Vec.inner_real]
  rfl

/-- The product with the transpose is the adjoint of the product. -/
theorem Denotes.adjoint (h : A.Denotes M) (x : Fin n → ℝ) (w : Fin m → ℝ) {y y' : Vec Extended}
    (hy : y.size = m) (hy' : y'.size = n) :
    ∃ v v' t, A.product? 1 (Vec.real x) 0 y = .ok v ∧
      A.transposeProduct? 1 (Vec.real w) 0 y' = .ok v' ∧
      Vec.inner? v (Vec.real w) = .ok (.real t) ∧ Vec.inner? (Vec.real x) v' = .ok (.real t) := by
  refine ⟨_, _, (M *ᵥ x) ⬝ᵥ w, h.product?_single x hy, h.transposeProduct?_single w hy',
    inner?_real _ _, ?_⟩
  rw [inner?_real, mulVec_transpose, dotProduct_comm (M *ᵥ x), dotProduct_mulVec,
    dotProduct_comm x]

/-! ### Triplets -/

/-- The dense matrix of triplets: at each position, the sum of their values. -/
noncomputable def dense (m n : ℕ) (triplets : List (Entry Extended)) : Matrix (Fin m) (Fin n) ℝ :=
  Matrix.of fun i j => Entry.sumAt triplets i j

variable {triplets : List (Entry Extended)}

/-- A matrix that is made from triplets of real numbers stands for their dense matrix, whichever
    way it is stored. -/
theorem denotes_dense (hreal : ∀ e ∈ triplets, Scalar.isFinite e.value = true)
    (hA : ofTriplets? m n triplets = .ok A) {B : SparseMatrix Extended}
    (hB : B = A ∨ ∃ s, A.reorder? s = .ok B) : B.Denotes (dense m n triplets) := by
  obtain ⟨hbounds, -, rfl⟩ := eq_of_ofTriplets? hA
  have hdenotes := denotes_ofEntries (s := .byColumn) hbounds hreal
  rcases hB with rfl | ⟨s, hs⟩
  · exact hdenotes
  · obtain rfl := eq_of_reorder? hs
    exact hdenotes.reorder s

theorem exists_reorder? (A : SparseMatrix Extended) {s : Storage}
    (hlines : checkLines s A.rows A.cols = .ok ()) : ∃ B, A.reorder? s = .ok B := by
  rw [reorder?, hlines]
  exact ⟨_, rfl⟩

/-- Triplets within a shape whose lines can be addressed make a matrix, which can be stored either
    way. In real numbers its products are those of the dense matrix of the triplets and of the
    transpose of that, and adjoint to one another. In any arithmetic, a product with a multiple by
    zero overwrites. -/
theorem products_ofTriplets? (hbounds : ∀ e ∈ triplets, e.row < m ∧ e.col < n)
    (hreal : ∀ e ∈ triplets, Scalar.isFinite e.value = true)
    (hlines : checkLines .byColumn m n = .ok ()) :
    (∃ A, ofTriplets? m n triplets = .ok A ∧
      (checkLines .byRow m n = .ok () → ∃ B, A.reorder? .byRow = .ok B) ∧
      ∀ B, (B = A ∨ ∃ s, A.reorder? s = .ok B) →
        (∀ (a b : ℝ) (x : Fin n → ℝ) (y : Fin m → ℝ),
          B.product? (.real a) (Vec.real x) (.real b) (Vec.real y) =
            .ok (Vec.real (a • (dense m n triplets *ᵥ x) + b • y))) ∧
        (∀ (a b : ℝ) (x : Fin m → ℝ) (y : Fin n → ℝ),
          B.transposeProduct? (.real a) (Vec.real x) (.real b) (Vec.real y) =
            .ok (Vec.real (a • ((dense m n triplets)ᵀ *ᵥ x) + b • y))) ∧
        ∀ (x : Fin n → ℝ) (w : Fin m → ℝ) (y y' : Vec Extended), y.size = m → y'.size = n →
          ∃ v v' t, B.product? 1 (Vec.real x) 0 y = .ok v ∧
            B.transposeProduct? 1 (Vec.real w) 0 y' = .ok v' ∧
            Vec.inner? v (Vec.real w) = .ok (.real t) ∧
            Vec.inner? (Vec.real x) v' = .ok (.real t)) ∧
    ∀ (α : Type) [Scalar α] (B : SparseMatrix α) (alpha beta : α) (x y y' : Vec α),
      (beta == 0) = true → y.size = y'.size →
        B.product? alpha x beta y = B.product? alpha x beta y' ∧
        B.transposeProduct? alpha x beta y = B.transposeProduct? alpha x beta y' := by
  constructor
  · have hA := ofTriplets?_eq hbounds hlines
    refine ⟨_, hA, fun hrows => exists_reorder? _ hrows, fun B hB => ?_⟩
    have hdenotes := denotes_dense hreal hA hB
    exact ⟨hdenotes.product?_eq, hdenotes.transposeProduct?_eq,
      fun x w y y' hy hy' => hdenotes.adjoint x w hy hy'⟩
  · intro α _ B alpha beta x y y' hbeta hsize
    exact ⟨B.product?_overwrites alpha x hbeta hsize,
      B.transposeProduct?_overwrites alpha x hbeta hsize⟩

/-- Three triplets for two positions, one of them with the value zero. In binary64 the negative
    zero overwrites what is no number and an infinity. -/
theorem exists_products_duplicate :
    (∃ A B, ofTriplets? 2 1 [⟨0, 0, .real 1⟩, ⟨1, 0, .real 0⟩, ⟨0, 0, .real 2⟩] = .ok A ∧
      A.reorder? .byRow = .ok B ∧
      B.product? (.real 2) (Vec.real ![5]) (.real 3) (Vec.real ![1, 1]) =
        .ok (Vec.real ![33, 3])) ∧
    ∀ (B : SparseMatrix Float) (x : Vec Float),
      B.product? 1 x (-0.0) #[0.0 / 0.0, 1.0 / 0.0] = B.product? 1 x (-0.0) #[7, 7] := by
  have hbounds : ∀ e ∈ ([⟨0, 0, .real 1⟩, ⟨1, 0, .real 0⟩, ⟨0, 0, .real 2⟩] :
      List (Entry Extended)), e.row < 2 ∧ e.col < 1 := by simp
  have hreal : ∀ e ∈ ([⟨0, 0, .real 1⟩, ⟨1, 0, .real 0⟩, ⟨0, 0, .real 2⟩] : List (Entry Extended)),
      Scalar.isFinite e.value = true := by simp
  obtain ⟨⟨A, hA, hrows, hproducts⟩, hoverwrites⟩ := products_ofTriplets? hbounds hreal rfl
  obtain ⟨B, hB⟩ := hrows rfl
  constructor
  · refine ⟨A, B, hA, hB, ?_⟩
    rw [(hproducts B (.inr ⟨_, hB⟩)).1]
    congr 2
    ext i
    fin_cases i
    · norm_num [dense, mulVec, dotProduct, Entry.sumAt, Entry.valueAt]
    · norm_num [dense, mulVec, dotProduct, Entry.sumAt, Entry.valueAt]
  · exact fun B x => (hoverwrites Float B 1 (-0.0) x _ _ (by decide +kernel) (by simp)).1

end SparseMatrix

end HybridGradient
