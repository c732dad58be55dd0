import HybridGradient.Proofs.RealVec

/-!
# Sparse matrices of real numbers

A sparse matrix whose stored values are real numbers stands for a matrix: at each
position, the sum of what is stored there. Products with it are products with that
matrix, and neither the order of the entries nor how they were put together matters.

* `SparseMatrix.Denotes`: a sparse matrix stands for a matrix;
* `SparseMatrix.Denotes.product`, `SparseMatrix.Denotes.transposeProduct`: the
  products;
* `SparseMatrix.Denotes.reorder`, `SparseMatrix.Denotes.mapValues`: the same
  entries in another order, and other values at the same positions.
-/

namespace HybridGradient

open Extended Matrix

variable {m n : ℕ}

/-- The real number that a value is, and zero if it is none. -/
def Extended.toReal : Extended → ℝ
  | real x => x
  | _ => 0

@[simp] theorem Extended.toReal_real (x : ℝ) : (real x).toReal = x := rfl

theorem Extended.eq_real_toReal {a : Extended} (h : Scalar.isFinite a = true) :
    a = real a.toReal := by
  obtain ⟨x, rfl⟩ := isFinite_iff.1 h
  rfl

/-! ### What is stored at a position -/

namespace Entry

/-- The value of an entry as seen from a position: zero from any other than its own. -/
noncomputable def valueAt (e : Entry Extended) (i j : ℕ) : ℝ :=
  if e.row = i ∧ e.col = j then e.value.toReal else 0

/-- The sum of the values that are stored at a position. -/
noncomputable def sumAt (es : List (Entry Extended)) (i j : ℕ) : ℝ :=
  (es.map fun e => e.valueAt i j).sum

theorem sumAt_cons (e : Entry Extended) (es : List (Entry Extended)) (i j : ℕ) :
    sumAt (e :: es) i j = e.valueAt i j + sumAt es i j := rfl

/-- The entry at the mirrored position. -/
def swap (e : Entry Extended) : Entry Extended := ⟨e.col, e.row, e.value⟩

theorem valueAt_swap (e : Entry Extended) (i j : ℕ) : e.swap.valueAt j i = e.valueAt i j := by
  rw [valueAt, valueAt, swap]
  exact if_congr and_comm rfl rfl

theorem sumAt_swap (es : List (Entry Extended)) (i j : ℕ) :
    sumAt (es.map swap) j i = sumAt es i j := by
  induction es with
  | nil => rfl
  | cons e es ih => rw [List.map_cons, sumAt_cons, sumAt_cons, ih, valueAt_swap]

/-- Values that are all multiplied by a number, at the position that it belongs to. -/
theorem sumAt_withValue {es : List (Entry Extended)} {f : Entry Extended → Extended} {i j : ℕ}
    {a : ℝ} (h : ∀ e ∈ es, e.row = i → e.col = j → f e = real (e.value.toReal * a)) :
    sumAt (es.map fun e => e.withValue (f e)) i j = sumAt es i j * a := by
  induction es with
  | nil => exact (zero_mul a).symm
  | cons e es ih =>
    have hvalue : (e.withValue (f e)).valueAt i j = e.valueAt i j * a := by
      rw [valueAt, valueAt, withValue]
      by_cases hij : e.row = i ∧ e.col = j
      · rw [if_pos hij, if_pos hij, h e List.mem_cons_self hij.1 hij.2, toReal_real]
      · rw [if_neg hij, if_neg hij, zero_mul]
    rw [List.map_cons, sumAt_cons, sumAt_cons, add_mul, hvalue,
      ih fun e' he' => h e' (List.mem_cons_of_mem _ he')]

/-- An entry within a shape, whose value is a real number. -/
structure Real (m n : ℕ) (e : Entry Extended) : Prop where
  row : e.row < m
  col : e.col < n
  value : Scalar.isFinite e.value = true

theorem Real.swap {e : Entry Extended} (h : e.Real m n) : e.swap.Real n m :=
  ⟨h.col, h.row, h.value⟩

/-- The share of one entry in a product. -/
theorem sum_valueAt_mul {e : Entry Extended} (h : e.col < n) (i : ℕ) (x : Fin n → ℝ) :
    ∑ j : Fin n, e.valueAt i j * x j = if e.row = i then e.value.toReal * x ⟨e.col, h⟩ else 0 := by
  by_cases hi : e.row = i
  · rw [if_pos hi, Finset.sum_eq_single ⟨e.col, h⟩]
    · rw [valueAt, if_pos ⟨hi, rfl⟩]
    · intro j _ hj
      rw [valueAt, if_neg, zero_mul]
      exact fun hij => hj (Fin.ext hij.2.symm)
    · exact fun hmem => absurd (Finset.mem_univ _) hmem
  · rw [if_neg hi]
    refine Finset.sum_eq_zero fun j _ => ?_
    rw [valueAt, if_neg fun hij => hi hij.1, zero_mul]

end Entry

/-! ### Products -/

/-- The components of a vector with something added to one of them. -/
theorem Vec.modify_real (y : Fin m → ℝ) {i : ℕ} (f : Extended → Extended) {a : ℝ}
    (h : ∀ y, f (.real y) = .real (y + a)) :
    (Vec.real y).modify i f = Vec.real fun k => y k + if i = k then a else 0 := by
  refine Vec.eq_real (by simp) fun k => ?_
  simp only [Fin.getElem_fin, Array.getElem_modify, Fin.val_cast]
  split
  · exact (congrArg f (Vec.getElem_real _ _)).trans (h _)
  · rw [Vec.getElem_real, add_zero]

namespace SparseMatrix

/-- The entries together add their product to a vector. -/
theorem accumulate_real {es : List (Entry Extended)} (hes : ∀ e ∈ es, e.Real m n) (a : ℝ)
    (x : Fin n → ℝ) (y : Fin m → ℝ) :
    accumulate Entry.row Entry.col (.real a) (Vec.real x) es (Vec.real y) =
      Vec.real fun i => y i + a * ∑ j : Fin n, Entry.sumAt es i j * x j := by
  induction es generalizing y with
  | nil => simp [accumulate, Entry.sumAt]
  | cons e es ih =>
    have he : e.Real m n := hes e List.mem_cons_self
    have hmodify := Vec.modify_real (i := e.row) y
      (· + .real a * e.value * (Vec.real x).getD e.col 0)
      (a := a * e.value.toReal * x ⟨e.col, he.col⟩) (fun y => by
        rw [Vec.getD_real x ⟨e.col, he.col⟩, eq_real_toReal he.value]
        rfl)
    rw [accumulate, List.foldl_cons, hmodify, ← accumulate,
      ih fun e' he' => hes e' (List.mem_cons_of_mem _ he')]
    congr 1
    funext i
    have hsum : ∑ j : Fin n, Entry.sumAt (e :: es) i j * x j =
        (if e.row = i then e.value.toReal * x ⟨e.col, he.col⟩ else 0) +
          ∑ j : Fin n, Entry.sumAt es i j * x j := by
      rw [← Entry.sum_valueAt_mul he.col, ← Finset.sum_add_distrib]
      exact Finset.sum_congr rfl fun j _ => by rw [Entry.sumAt_cons, add_mul]
    rw [hsum]
    split <;> ring

/-- A sparse matrix stands for a matrix of real numbers. -/
structure Denotes (A : SparseMatrix Extended) (M : Matrix (Fin m) (Fin n) ℝ) : Prop where
  rows : A.rows = m
  cols : A.cols = n
  value_real : ∀ e ∈ A.entries, Scalar.isFinite e.value = true
  apply : ∀ i j, M i j = Entry.sumAt A.entries i j

variable {A : SparseMatrix Extended} {M : Matrix (Fin m) (Fin n) ℝ}

theorem Denotes.entry (h : A.Denotes M) {e : Entry Extended} (he : e ∈ A.entries) : e.Real m n :=
  ⟨h.rows ▸ (A.inBounds e he).1, h.cols ▸ (A.inBounds e he).2, h.value_real e he⟩

theorem preset_real (b : ℝ) (y : Fin m → ℝ) :
    preset (.real b) (Vec.real y) = Vec.real (b • y) := by
  rw [preset]
  by_cases hb : b = 0
  · rw [if_pos (real_beq_zero.2 hb), Vec.size_real, Vec.zeros_eq, hb, zero_smul]
  · rw [if_neg (mt real_beq_zero.1 hb), Vec.scale_real]

/-- The product with a sparse matrix is the one with the matrix. -/
theorem Denotes.product (h : A.Denotes M) (a : ℝ) (x : Fin n → ℝ) (b : ℝ) (y : Fin m → ℝ) :
    A.product (.real a) (Vec.real x) (.real b) (Vec.real y) =
      Vec.real (b • y + a • (M *ᵥ x)) := by
  rw [SparseMatrix.product, preset_real, accumulate_real fun e he => h.entry he]
  congr 1
  funext i
  simp only [Pi.add_apply, Pi.smul_apply, smul_eq_mul, mulVec, dotProduct, h.apply]

/-- The product with a transposed sparse matrix is the one with the transposed matrix. -/
theorem Denotes.transposeProduct (h : A.Denotes M) (a : ℝ) (x : Fin m → ℝ) (b : ℝ)
    (y : Fin n → ℝ) :
    A.transposeProduct (.real a) (Vec.real x) (.real b) (Vec.real y) =
      Vec.real (b • y + a • (Mᵀ *ᵥ x)) := by
  have hswap : accumulate Entry.col Entry.row (.real a) (Vec.real x) A.entries
      (Vec.real (b • y)) = accumulate Entry.row Entry.col (.real a) (Vec.real x)
        (A.entries.map Entry.swap) (Vec.real (b • y)) := by
    rw [accumulate, accumulate, List.foldl_map]
    rfl
  have hreal : ∀ e ∈ A.entries.map Entry.swap, e.Real n m := fun e he => by
    obtain ⟨e', he', rfl⟩ := List.mem_map.1 he
    exact (h.entry he').swap
  rw [SparseMatrix.transposeProduct, preset_real, hswap, accumulate_real hreal]
  congr 1
  funext j
  simp only [Pi.add_apply, Pi.smul_apply, smul_eq_mul, mulVec, dotProduct, transpose_apply,
    h.apply, Entry.sumAt_swap]

end SparseMatrix

/-! ### Other entries -/

theorem Extended.toReal_add {a b : Extended} (ha : Scalar.isFinite a = true)
    (hb : Scalar.isFinite b = true) : (a + b).toReal = a.toReal + b.toReal := by
  rw [eq_real_toReal ha, eq_real_toReal hb]
  rfl

theorem Extended.isFinite_add {a b : Extended} (ha : Scalar.isFinite a = true)
    (hb : Scalar.isFinite b = true) : Scalar.isFinite (a + b) = true := by
  rw [eq_real_toReal ha, eq_real_toReal hb]
  rfl

/-- Only real numbers have a real sum. -/
theorem Extended.isFinite_of_add {a b : Extended} (h : Scalar.isFinite (a + b) = true) :
    Scalar.isFinite a = true ∧ Scalar.isFinite b = true := by
  cases a <;> cases b <;> first | exact ⟨rfl, rfl⟩ | exact nomatch h

namespace Storage

variable (s : Storage) {e : Entry Extended} {es : List (Entry Extended)}

theorem isFinite_of_mem_insert (he : Scalar.isFinite e.value = true)
    (hes : ∀ f ∈ es, Scalar.isFinite f.value = true) :
    ∀ g ∈ s.insert e es, Scalar.isFinite g.value = true := by
  induction es with
  | nil =>
    intro g hg
    rwa [List.mem_singleton.1 hg]
  | cons f fs ih =>
    have hf := hes f List.mem_cons_self
    have hfs (g) (hg : g ∈ fs) := hes g (List.mem_cons_of_mem _ hg)
    rw [insert]
    split
    · exact List.forall_mem_cons.2 ⟨isFinite_add hf he, hfs⟩
    · split
      · exact List.forall_mem_cons.2 ⟨he, hes⟩
      · exact List.forall_mem_cons.2 ⟨hf, ih hfs⟩

/-- An entry that is inserted adds its value to what is stored at its position. -/
theorem sumAt_insert (he : Scalar.isFinite e.value = true)
    (hes : ∀ f ∈ es, Scalar.isFinite f.value = true) (i j : ℕ) :
    Entry.sumAt (s.insert e es) i j = e.valueAt i j + Entry.sumAt es i j := by
  induction es with
  | nil => rfl
  | cons f fs ih =>
    have hf := hes f List.mem_cons_self
    rw [insert]
    split
    · rename_i hsame
      have hvalue : (f.withValue (f.value + e.value)).valueAt i j =
          e.valueAt i j + f.valueAt i j := by
        simp only [Entry.valueAt, Entry.withValue, hsame.1, hsame.2, toReal_add hf he]
        split
        · exact add_comm _ _
        · exact (add_zero 0).symm
      rw [Entry.sumAt_cons, Entry.sumAt_cons, hvalue, add_assoc]
    · split
      · rfl
      · rw [Entry.sumAt_cons, Entry.sumAt_cons,
          ih fun g hg => hes g (List.mem_cons_of_mem _ hg), add_left_comm]

/-- Entries that are inserted one after the other add their values to what is stored. -/
theorem foldl_insert_real {fs : List (Entry Extended)}
    (h : ∀ e ∈ es, Scalar.isFinite e.value = true)
    (hfs : ∀ f ∈ fs, Scalar.isFinite f.value = true) :
    (∀ g ∈ es.foldl (fun fs e => s.insert e fs) fs, Scalar.isFinite g.value = true) ∧
      ∀ i j, Entry.sumAt (es.foldl (fun fs e => s.insert e fs) fs) i j =
        Entry.sumAt es i j + Entry.sumAt fs i j := by
  induction es generalizing fs with
  | nil => exact ⟨hfs, fun i j => (zero_add _).symm⟩
  | cons e rest ih =>
    have he := h e List.mem_cons_self
    obtain ⟨hreal, hsum⟩ := ih (fun g hg => h g (List.mem_cons_of_mem _ hg))
      (s.isFinite_of_mem_insert he hfs)
    refine ⟨hreal, fun i j => ?_⟩
    rw [List.foldl_cons, hsum, s.sumAt_insert he hfs, Entry.sumAt_cons]
    ring

/-- Collecting entries keeps what is stored at each position. -/
theorem collect_real (h : ∀ e ∈ es, Scalar.isFinite e.value = true) :
    (∀ g ∈ s.collect es, Scalar.isFinite g.value = true) ∧
      ∀ i j, Entry.sumAt (s.collect es) i j = Entry.sumAt es i j := by
  have hnil : ∀ f ∈ ([] : List (Entry Extended)), Scalar.isFinite f.value = true := by simp
  obtain ⟨hreal, hsum⟩ := s.foldl_insert_real h hnil
  exact ⟨hreal, fun i j => (hsum i j).trans (add_zero _)⟩

/-- Only real numbers are inserted if all that is stored thereafter is real. -/
theorem isFinite_of_insert (h : ∀ g ∈ s.insert e es, Scalar.isFinite g.value = true) :
    Scalar.isFinite e.value = true ∧ ∀ f ∈ es, Scalar.isFinite f.value = true := by
  induction es with
  | nil => exact ⟨h e List.mem_cons_self, by simp⟩
  | cons f fs ih =>
    rw [insert] at h
    split at h
    · rw [List.forall_mem_cons] at h ⊢
      obtain ⟨hf, he⟩ := isFinite_of_add h.1
      exact ⟨he, hf, h.2⟩
    · split at h
      · rwa [List.forall_mem_cons] at h
      · rw [List.forall_mem_cons] at h ⊢
        obtain ⟨he, hfs⟩ := ih h.2
        exact ⟨he, h.1, hfs⟩

/-- Only real numbers are collected if all that is stored thereafter is real. -/
theorem isFinite_of_collect (h : ∀ g ∈ s.collect es, Scalar.isFinite g.value = true) :
    ∀ e ∈ es, Scalar.isFinite e.value = true := by
  suffices hfold : ∀ fs, (∀ g ∈ es.foldl (fun fs e => s.insert e fs) fs,
      Scalar.isFinite g.value = true) → (∀ e ∈ es, Scalar.isFinite e.value = true) ∧
        ∀ f ∈ fs, Scalar.isFinite f.value = true from (hfold [] h).1
  clear h
  induction es with
  | nil => exact fun fs h => ⟨by simp, h⟩
  | cons e rest ih =>
    intro fs h
    obtain ⟨hrest, hinsert⟩ := ih _ h
    obtain ⟨he, hfs⟩ := s.isFinite_of_insert hinsert
    exact ⟨List.forall_mem_cons.2 ⟨he, hrest⟩, hfs⟩

end Storage

namespace SparseMatrix

variable {A : SparseMatrix Extended} {M : Matrix (Fin m) (Fin n) ℝ}

/-- The order of the entries does not matter. -/
theorem Denotes.reorder (h : A.Denotes M) (s : Storage) : (A.reorder s).Denotes M where
  rows := h.rows
  cols := h.cols
  value_real := (s.collect_real h.value_real).1
  apply i j := (h.apply i j).trans ((s.collect_real h.value_real).2 i j).symm

/-- A matrix that is put together stands for the sums of what is given for each position. -/
theorem denotes_ofEntries {s : Storage} {es : List (Entry Extended)}
    (hes : ∀ e ∈ es, e.row < m ∧ e.col < n)
    (hreal : ∀ e ∈ es, Scalar.isFinite e.value = true) :
    (ofEntries m n s es hes).Denotes (Matrix.of fun (i : Fin m) (j : Fin n) =>
      Entry.sumAt es i j) where
  rows := rfl
  cols := rfl
  value_real := (s.collect_real hreal).1
  apply i j := ((s.collect_real hreal).2 i j).symm

/-- Values that are multiplied, each by a number of its position, stand for the matrix of
    these products. -/
theorem Denotes.mapValues (h : A.Denotes M) {f : Entry Extended → Extended}
    {G : Matrix (Fin m) (Fin n) ℝ}
    (hf : ∀ e (he : e ∈ A.entries), f e =
      .real (e.value.toReal * G ⟨e.row, (h.entry he).row⟩ ⟨e.col, (h.entry he).col⟩)) :
    (A.mapValues f).Denotes (Matrix.of fun i j => M i j * G i j) where
  rows := h.rows
  cols := h.cols
  value_real e he := by
    obtain ⟨e', he', rfl⟩ := List.mem_map.1 he
    change Scalar.isFinite (f e') = true
    rw [hf e' he', isFinite_real]
  apply i j := by
    have hat (e) (he : e ∈ A.entries) (hi : e.row = i) (hj : e.col = j) :
        f e = .real (e.value.toReal * G i j) := by
      obtain rfl : i = ⟨e.row, (h.entry he).row⟩ := Fin.ext hi.symm
      obtain rfl : j = ⟨e.col, (h.entry he).col⟩ := Fin.ext hj.symm
      exact hf e he
    rw [Matrix.of_apply, h.apply]
    exact (Entry.sumAt_withValue hat).symm

end SparseMatrix

end HybridGradient
