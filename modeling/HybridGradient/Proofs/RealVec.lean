import HybridGradient.Proofs.Extended
import HybridGradient.Scaled
import Mathlib.Algebra.BigOperators.Fin
import Mathlib.LinearAlgebra.Matrix.DotProduct

/-!
# Vectors of real numbers

Exact arithmetic on vectors whose components are real numbers: each operation on
them is the one of linear algebra, whatever the order in which it goes through the
components.

* `Vec.real`: the vector of given real numbers, and what the operations make of it;
* `length`: the euclidean length, which is what a norm comes to;
* `dotProduct_le_length`: the inequality of Cauchy and Schwarz.
-/

namespace HybridGradient

open Extended Matrix

variable {m n : ℕ}

/-! ### Length -/

/-- The euclidean length of a vector. -/
noncomputable def length (x : Fin n → ℝ) : ℝ := √(x ⬝ᵥ x)

theorem dotProduct_self_nonneg (x : Fin n → ℝ) : 0 ≤ x ⬝ᵥ x :=
  Finset.sum_nonneg fun j _ => mul_self_nonneg (x j)

theorem length_nonneg (x : Fin n → ℝ) : 0 ≤ length x := Real.sqrt_nonneg _

theorem length_mul_self (x : Fin n → ℝ) : length x * length x = x ⬝ᵥ x :=
  Real.mul_self_sqrt (dotProduct_self_nonneg x)

/-- The inequality of Cauchy and Schwarz. -/
theorem dotProduct_le_length (x y : Fin n → ℝ) : x ⬝ᵥ y ≤ length x * length y := by
  have h := Real.sum_mul_le_sqrt_mul_sqrt Finset.univ x y
  simpa only [length, dotProduct, sq] using h

/-- No component is longer than the vector. -/
theorem abs_le_length (x : Fin n → ℝ) (j : Fin n) : |x j| ≤ length x := by
  refine Real.abs_le_sqrt ?_
  rw [sq]
  exact Finset.single_le_sum (f := fun j => x j * x j) (fun j _ => mul_self_nonneg (x j))
    (Finset.mem_univ j)

/-- Only the vector of zeros has length zero. -/
theorem length_eq_zero {x : Fin n → ℝ} : length x = 0 ↔ x = 0 := by
  rw [length, Real.sqrt_eq_zero (dotProduct_self_nonneg x)]
  exact dotProduct_self_eq_zero

theorem length_pos {x : Fin n → ℝ} : 0 < length x ↔ x ≠ 0 := by
  rw [(length_nonneg x).lt_iff_ne', ne_eq, length_eq_zero]

theorem length_neg (x : Fin n → ℝ) : length (-x) = length x := by
  rw [length, length, neg_dotProduct_neg]

theorem length_smul {a : ℝ} (ha : 0 ≤ a) (x : Fin n → ℝ) : length (a • x) = a * length x := by
  rw [length, smul_dotProduct, dotProduct_smul, smul_eq_mul, smul_eq_mul, ← mul_assoc,
    Real.sqrt_mul (mul_nonneg ha ha), Real.sqrt_mul_self ha, length]

theorem length_abs (x : Fin n → ℝ) : length (fun j => |x j|) = length x := by
  rw [length, length, dotProduct, dotProduct]
  simp only [abs_mul_abs_self]

/-! ### Real vectors -/

namespace Vec

/-- The vector of given real numbers. -/
def real (x : Fin n → ℝ) : Vec Extended := Array.ofFn fun j => .real (x j)

@[simp] theorem size_real (x : Fin n → ℝ) : (real x).size = n := Array.size_ofFn

@[simp] theorem getElem_real (x : Fin n → ℝ) {j : ℕ} (h : j < (real x).size) :
    (real x)[j] = .real (x ⟨j, size_real x ▸ h⟩) := Array.getElem_ofFn h

theorem getD_real (x : Fin n → ℝ) (j : Fin n) (d : Extended) :
    (real x).getD j d = .real (x j) := by
  rw [Array.getD_eq_getD_getElem?, real, Array.getElem?_ofFn]
  simp

/-- A vector is real if each of its components is. -/
theorem eq_real {v : Vec Extended} {x : Fin n → ℝ} (hs : v.size = n)
    (h : ∀ j : Fin n, v[j.cast hs.symm] = .real (x j)) : v = real x := by
  refine Array.ext (by rw [hs, size_real]) fun j hj hj' => ?_
  rw [getElem_real]
  exact h ⟨j, hs ▸ hj⟩

theorem zipWith_ofFn {β γ δ : Type} (f : β → γ → δ) (a : Fin n → β) (b : Fin n → γ) :
    Array.zipWith f (Array.ofFn a) (Array.ofFn b) = Array.ofFn fun j => f (a j) (b j) := by
  refine Array.ext (by simp) fun j hj hj' => ?_
  simp

theorem mapIdx_real {β : Type} (f : ℕ → Extended → β) (x : Fin n → ℝ) :
    (real x).mapIdx f = Array.ofFn fun j => f j (.real (x j)) := by
  refine Array.ext (by simp) fun j hj hj' => ?_
  simp

theorem zeros_eq (n : ℕ) : (zeros n : Vec Extended) = real (0 : Fin n → ℝ) :=
  eq_real (size_zeros n) fun _ => Array.getElem_replicate _

theorem ones_eq (n : ℕ) : (ones n : Vec Extended) = real (1 : Fin n → ℝ) :=
  eq_real (size_ones n) fun _ => Array.getElem_replicate _

/-- What is added up one after the other comes to the sum of all. -/
theorem foldl_ofFn {β : Type} {f : Extended → β → Extended} {a : Fin n → β} {g : Fin n → ℝ}
    (h : ∀ t j, f (.real t) (a j) = .real (t + g j)) :
    (Array.ofFn a).foldl f 0 = .real (∑ j, g j) := by
  induction n with
  | zero => simp [zero_eq]
  | succ n ih =>
    have hlast : Array.ofFn a =
        (Array.ofFn fun j => a (Fin.castSucc j)).push (a (Fin.last n)) := Array.ofFn_succ
    rw [hlast, Array.foldl_push, ih (g := fun j => g j.castSucc) fun t j => h t j.castSucc, h,
      Fin.sum_univ_castSucc]

/-- The sum does not depend on the order of the components. -/
theorem sum_real (x : Fin n → ℝ) : sum (real x) = .real (∑ j, x j) :=
  foldl_ofFn fun _ _ => rfl

theorem times_real (x y : Fin n → ℝ) : times (real x) (real y) = real (x * y) :=
  zipWith_ofFn _ _ _

@[simp] theorem inner_real (x y : Fin n → ℝ) : inner (real x) (real y) = .real (x ⬝ᵥ y) := by
  have h := times_real x y
  rw [times] at h
  rw [inner, h, sum_real]
  rfl

@[simp] theorem norm_real (x : Fin n → ℝ) : norm (real x) = .real (length x) := by
  rw [norm, inner_real, sqrt_real (dotProduct_self_nonneg x), length]

theorem scale_real (a : ℝ) (x : Fin n → ℝ) : scale (.real a) (real x) = real (a • x) :=
  Array.map_ofFn

theorem add_real (a : ℝ) (x y : Fin n → ℝ) :
    add (.real a) (real x) (real y) = real (y + a • x) :=
  zipWith_ofFn _ _ _

theorem divide_real {d : Fin n → ℝ} (hd : ∀ j, d j ≠ 0) (x : Fin n → ℝ) :
    divide (real d) (real x) = real (x / d) := by
  refine (zipWith_ofFn _ _ _).trans ?_
  congr 1
  funext j
  exact div_real _ (hd j)

/-- The length of the components from one on is the one of the vector with zeros before. -/
theorem norm_extract_real (x : Fin n → ℝ) {k : ℕ} (hk : k ≤ n) :
    norm ((real x).extract k n) = .real (length fun j : Fin n => if j < k then 0 else x j) := by
  obtain ⟨d, rfl⟩ := Nat.le.dest hk
  have hextract : (real x).extract k (k + d) = real fun j : Fin d => x (Fin.natAdd k j) := by
    refine eq_real (by simp) fun j => ?_
    rw [Fin.getElem_fin, Array.getElem_extract, getElem_real]
    rfl
  rw [hextract, norm_real, length, length, dotProduct, dotProduct, Fin.sum_univ_add]
  simp

end Vec

/-- The image of a real vector under real factors. -/
theorem Scaled.image_real (d x : Fin n → ℝ) :
    image (Vec.real d) (Vec.real x) = Vec.real (d * x) := by
  rw [image, Vec.addDiagonal, Vec.size_real, Vec.zeros_eq, Vec.real, Vec.real, Vec.real,
    Vec.zipWith_ofFn, Vec.zipWith_ofFn]
  congr 1
  funext j
  simp [zero_eq, one_eq]

end HybridGradient
