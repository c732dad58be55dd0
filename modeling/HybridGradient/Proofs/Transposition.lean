import HybridGradient.Proofs.BalancedProblem
import HybridGradient.Proofs.StorageOrder

/-!
# Balancing the transpose

A pass to the greatest magnitude computes the factors of the rows and those of the columns from
the same magnitudes. If rows and columns change places, nothing else changes: what is scaled is
the same entry, by the same two factors, and each line meets its magnitudes in the order in which
it met them before. So the passes find the same factors, in exchanged roles, in any arithmetic
in which the order of two factors does not matter. That is the case in binary arithmetic, even
where a product is infinite, zero or no number.

Passes to the geometric mean are another matter, as they balance the rows first.

* `SparseMatrix.transpose`: the matrix with rows and columns exchanged;
* `SparseMatrix.ofTriplets?_transpose`: it is what triplets with exchanged indices make;
* `SparseMatrix.balancing_transpose`: the passes lead to the same factors, exchanged;
* `Scaled.balanced_transpose`: a problem with the transposed matrix is balanced by these factors,
  and its scaled matrix is the transposed one.
-/

namespace HybridGradient

/-! ### Rows and columns exchanged -/

section Exchange

variable {α : Type}

/-- The entry at the position across the diagonal. -/
def Entry.transpose (e : Entry α) : Entry α := ⟨e.col, e.row, e.value⟩

@[simp] theorem Entry.row_transpose (e : Entry α) : e.transpose.row = e.col := rfl

@[simp] theorem Entry.col_transpose (e : Entry α) : e.transpose.col = e.row := rfl

@[simp] theorem Entry.value_transpose (e : Entry α) : e.transpose.value = e.value := rfl

theorem Entry.moves_transpose : Moves (transpose : Entry α → Entry α) where
  samePosition _ _ := and_comm
  value _ := rfl
  withValue _ _ := rfl

/-- Columns for rows, and rows for columns. -/
def Storage.transpose : Storage → Storage
  | byColumn => byRow
  | byRow => byColumn

theorem Storage.before_transpose (s : Storage) (e f : Entry α) :
    s.transpose.Before e.transpose f.transpose ↔ s.Before e f := by
  cases s <;> exact Iff.rfl

namespace SparseMatrix

variable {A B : SparseMatrix α}

/-- The matrix whose columns are the rows of a given one. -/
def transpose (A : SparseMatrix α) : SparseMatrix α where
  rows := A.cols
  cols := A.rows
  storage := A.storage.transpose
  entries := A.entries.map Entry.transpose
  inBounds e he := by
    obtain ⟨f, hf, rfl⟩ := List.mem_map.1 he
    exact (A.inBounds f hf).symm
  ordered := List.pairwise_map.2 (A.ordered.imp (A.storage.before_transpose _ _).2)

theorem Alike.transpose (h : A.Alike B) : A.transpose.Alike B.transpose :=
  ⟨h.cols, h.rows, h.entries.map _⟩

/-- Triplets with exchanged indices make the transpose, apart from the order in which it is
    stored. -/
theorem ofTriplets?_transpose [Add α] {rows cols : ℕ} {triplets : List (Entry α)}
    (hA : ofTriplets? rows cols triplets = .ok A)
    (hlines : checkLines .byColumn cols rows = .ok ()) :
    ∃ B, ofTriplets? cols rows (triplets.map Entry.transpose) = .ok B ∧ B.Alike A.transpose := by
  obtain ⟨hbounds, -, rfl⟩ := eq_of_ofTriplets? hA
  have hbounds' : ∀ e ∈ triplets.map Entry.transpose, e.row < cols ∧ e.col < rows := by
    intro e he
    obtain ⟨f, hf, rfl⟩ := List.mem_map.1 he
    exact (hbounds f hf).symm
  exact ⟨_, ofTriplets?_eq hbounds' hlines, rfl, rfl,
    Entry.moves_transpose.collect_perm .byColumn .byColumn triplets⟩

/-- Other values in the transpose are the same values before it. -/
theorem mapValues_transpose {f g : Entry α → α} (h : ∀ e, g e.transpose = f e)
    (A : SparseMatrix α) : A.transpose.mapValues g = (A.mapValues f).transpose := by
  refine eq_of_entries_eq rfl rfl rfl ?_
  simp only [mapValues, transpose, List.map_map]
  refine List.map_congr_left fun e _ => ?_
  simp only [Function.comp_apply, h]
  rfl

end SparseMatrix

end Exchange

/-! ### Factors -/

section Factors

variable {α : Type} [Scalar α]

/-- The factors of the columns for those of the rows, and the other way round. -/
def Factors.transpose (f : Factors α) : Factors α := ⟨f.cols, f.rows⟩

theorem MagnitudeRange.ofLines_map (φ : Entry α → Entry α) (line : Entry α → ℕ)
    (magnitude : Entry α → α) (count : ℕ) (es : List (Entry α)) :
    ofLines line magnitude count (es.map φ) =
      ofLines (fun e => line (φ e)) (fun e => magnitude (φ e)) count es := by
  rw [ofLines, ofLines, List.foldl_map]

variable [@Std.Commutative α (· * ·)]

namespace Factors

/-- An entry is scaled by the product of two factors, in either order. -/
theorem scaledValue_transpose (f : Factors α) (e : Entry α) :
    f.transpose.scaledValue e.transpose = f.scaledValue e :=
  congrArg (e.value / ·) (Std.Commutative.comm (f.cols.getD e.col 1) _)

theorem magnitude_transpose (f : Factors α) (e : Entry α) :
    f.transpose.magnitude e.transpose = f.magnitude e :=
  congrArg Scalar.abs (f.scaledValue_transpose e)

theorem balanceRows_transpose (f : Factors α) (b : Balance) (least : α) (A : SparseMatrix α) :
    f.transpose.balanceRows b least A.transpose = f.balanceCols b least A := by
  simp only [balanceRows, balanceCols, SparseMatrix.transpose, MagnitudeRange.ofLines_map,
    Entry.row_transpose, magnitude_transpose]
  rfl

theorem balanceCols_transpose (f : Factors α) (b : Balance) (least : α) (A : SparseMatrix α) :
    f.transpose.balanceCols b least A.transpose = f.balanceRows b least A := by
  simp only [balanceRows, balanceCols, SparseMatrix.transpose, MagnitudeRange.ofLines_map,
    Entry.col_transpose, magnitude_transpose]
  rfl

/-- Both kinds of lines are balanced from the factors before the pass. -/
theorem pass_transpose (least : α) (A : SparseMatrix α) (f : Factors α) :
    pass .largest least A.transpose f.transpose = (pass .largest least A f).transpose := by
  simp only [pass, balanceRows_transpose, balanceCols_transpose]
  rfl

theorem passes_transpose (least : α) (A : SparseMatrix α) (count : ℕ) (f : Factors α) :
    passes .largest least A.transpose count f.transpose =
      (passes .largest least A count f).transpose := by
  induction count with
  | zero => rfl
  | succ count ih =>
    change pass .largest least A.transpose (passes .largest least A.transpose count f.transpose) =
      (pass .largest least A (passes .largest least A count f)).transpose
    rw [ih, pass_transpose]

end Factors

theorem SparseMatrix.balancing_transpose (A : SparseMatrix α) (largests : ℕ) (least : α) :
    Factors.balancing A.transpose 0 largests least =
      (Factors.balancing A 0 largests least).transpose :=
  Factors.passes_transpose least A largests (.unit A)

end Factors

/-! ### Binary arithmetic -/

open Float.Model

/-- The sign, the significand and the exponent of a product do not depend on the order of its
    factors, and neither does what becomes of zeros, infinities and what is no number. -/
theorem mul_comm_unpacked (F : Format) (u v : UnpackedFloat) :
    UnpackedFloat.mul F u v = UnpackedFloat.mul F v u := by
  have hsign (s t : UnpackedFloat.Sign) : s * t = t * s := by cases s <;> cases t <;> rfl
  rcases u with s | _ | s | ⟨s, m, e, hm⟩ <;> rcases v with t | _ | t | ⟨t, m', e', hm'⟩
  case finite.finite =>
    simp only [UnpackedFloat.mul]
    rw [hsign, Nat.mul_comm, Int.add_comm]
  all_goals simp only [UnpackedFloat.mul, hsign]

instance commutative_float : @Std.Commutative Float (· * ·) where
  comm _ _ := congrArg (fun u => Float.ofModel (.pack u)) (mul_comm_unpacked .binary64 _ _)

instance commutative_float32 : @Std.Commutative Float32 (· * ·) where
  comm _ _ := congrArg (fun u => Float32.ofModel (.pack u)) (mul_comm_unpacked .binary32 _ _)

/-! ### Problems -/

namespace Scaled

variable {α : Type} [Scalar α] [@Std.Commutative α (· * ·)] {p q : Problem α}

/-- A scaled matrix is found in the transpose of the other one, if it is scaled by the same
    factors, exchanged. -/
theorem alike_mapValues_transpose (h : q.matrix.Alike p.matrix.transpose) (f : Factors α) :
    ((q.matrix.reorder .byColumn).mapValues f.transpose.scaledValue).Alike
      ((p.matrix.reorder .byColumn).mapValues f.scaledValue).transpose := by
  have hreorder : (q.matrix.reorder .byColumn).Alike (p.matrix.reorder .byColumn).transpose :=
    (q.matrix.alike_reorder _).symm.trans (h.trans (p.matrix.alike_reorder _).transpose)
  rw [← SparseMatrix.mapValues_transpose f.scaledValue_transpose]
  exact hreorder.mapValues _

/-- Problems with transposed matrices are balanced by the same factors if only passes to the
    greatest magnitude are made, whatever their other data are.

    The factors of the constraints of one problem are those of the variables of the other one, to
    the last bit, and the scaled matrices are transposed as well. If there was a pass, they are
    stored by column. -/
theorem balanced_transpose (h : q.matrix.Alike p.matrix.transpose) (largests : ℕ) (least : α) :
    let s := balanced p 0 largests least
    let t := balanced q 0 largests least
    t.constraintFactors = s.variableFactors ∧ t.variableFactors = s.constraintFactors ∧
      t.problem.matrix.Alike s.problem.matrix.transpose ∧
      (0 < largests → t.problem.matrix = s.problem.matrix.transpose.reorder .byColumn) := by
  intro s t
  rcases Nat.eq_zero_or_pos largests with rfl | hlargests
  · have hs : s = identity p := if_pos ⟨rfl, rfl⟩
    have ht : t = identity q := if_pos ⟨rfl, rfl⟩
    rw [hs, ht]
    exact ⟨congrArg Vec.ones h.rows, congrArg Vec.ones h.cols, h, fun hpos => nomatch hpos⟩
  · have hfactors : Factors.balancing q.matrix 0 largests least =
        (Factors.balancing p.matrix 0 largests least).transpose := by
      rw [h.balancing, SparseMatrix.balancing_transpose]
    have hs : s = ofFactors p (Factors.balancing p.matrix 0 largests least) _ _ :=
      if_neg fun hzero => hlargests.ne' hzero.2
    have ht : t = ofFactors q (Factors.balancing q.matrix 0 largests least) _ _ :=
      if_neg fun hzero => hlargests.ne' hzero.2
    have hmatrix : t.problem.matrix.Alike s.problem.matrix.transpose := by
      rw [hs, ht]
      simp only [ofFactors, hfactors]
      exact alike_mapValues_transpose h _
    refine ⟨?_, ?_, hmatrix, fun _ => ?_⟩
    · rw [hs, ht]
      exact congrArg Factors.rows hfactors
    · rw [hs, ht]
      exact congrArg Factors.cols hfactors
    · refine (hmatrix.trans (SparseMatrix.alike_reorder _ _)).eq_of_storage ?_
      rw [ht]
      rfl

/-- An uneven row that takes a factor to zero, and an uneven square whose coefficients vanish, with
    the column and the square that their triplets make with exchanged indices. -/
theorem balanced_transpose_uneven :
    (∃ B, SparseMatrix.unevenRow.transpose.Alike B ∧
      let s := balanced (.cone .unevenRow) 0 4 (Scalar.tenth 12)
      let t := balanced (.cone B) 0 4 (Scalar.tenth 12)
      (∃ d, s.IsFactor d ∧ ¬ 0 < d) ∧
      t.constraintFactors = s.variableFactors ∧ t.variableFactors = s.constraintFactors ∧
      t.problem.matrix = s.problem.matrix.transpose.reorder .byColumn) ∧
    ∃ B, SparseMatrix.unevenSquare.transpose.Alike B ∧
      let s := balanced (.cone .unevenSquare) 0 4 (Scalar.tenth 12)
      let t := balanced (.cone B) 0 4 (Scalar.tenth 12)
      (∃ e ∈ s.problem.matrix.entries, ¬ 0 < e.value) ∧
      t.constraintFactors = s.variableFactors ∧ t.variableFactors = s.constraintFactors ∧
      t.problem.matrix = s.problem.matrix.transpose.reorder .byColumn := by
  have hrow : SparseMatrix.ofTriplets? 1 2 _ = .ok SparseMatrix.unevenRow :=
    SparseMatrix.ofTriplets?_eq (by simp) rfl
  have hsquare : SparseMatrix.ofTriplets? 2 2 _ = .ok SparseMatrix.unevenSquare :=
    SparseMatrix.ofTriplets?_eq (by simp) rfl
  obtain ⟨B, -, hB⟩ := SparseMatrix.ofTriplets?_transpose hrow rfl
  obtain ⟨C, -, hC⟩ := SparseMatrix.ofTriplets?_transpose hsquare rfl
  obtain ⟨hrows, hcols, -, hmatrix⟩ := balanced_transpose (p := .cone .unevenRow) (q := .cone B)
    hB 4 (Scalar.tenth 12)
  obtain ⟨hrows', hcols', -, hmatrix'⟩ := balanced_transpose (p := .cone .unevenSquare)
    (q := .cone C) hC 4 (Scalar.tenth 12)
  refine ⟨⟨B, hB.symm, ?_, hrows, hcols, hmatrix (by decide)⟩,
    C, hC.symm, ?_, hrows', hcols', hmatrix' (by decide)⟩
  · obtain ⟨d, hd, hzero⟩ := exists_isFactor (f := fun d => decide (0 < d))
      (by decide +kernel : (balanced (.cone .unevenRow) 0 4
        (Scalar.tenth 12)).variableFactors.all (fun d => decide (0 < d)) = false)
    exact ⟨d, hd, fun hpos => hzero (decide_eq_true hpos)⟩
  · have hall : ¬ ∀ e ∈ (balanced (.cone .unevenSquare) 0 4
        (Scalar.tenth 12)).problem.matrix.entries, 0 < e.value := by decide +kernel
    push Not at hall
    exact hall

end Scaled

end HybridGradient
