import HybridGradient.SparseMatrix.Entry
import HybridGradient.Vec

/-!
# Sparse matrices

A matrix is its shape and the list of its stored entries, in order and with at
most one entry at a position. An entry may be zero: what is stored is a matter of
the positions that were given, not of the values.

* `SparseMatrix.ofTriplets?`: the matrix given by triplets of row, column and
  value in any order, in which the values at one position are added up from the
  first to the last; a triplet outside the shape is a fault;
* `SparseMatrix.reorder`: the same entries in the other order;
* `SparseMatrix.mapValues`: other values at the same positions.
-/

namespace HybridGradient

/-- A matrix given by its stored entries. -/
structure SparseMatrix (α : Type) where
  /-- The number of rows. -/
  rows : Nat
  /-- The number of columns. -/
  cols : Nat
  /-- The order of the entries. -/
  storage : Storage
  /-- The entries that are stored. -/
  entries : List (Entry α)
  /-- Every entry lies within the shape. -/
  inBounds : ∀ e ∈ entries, e.row < rows ∧ e.col < cols
  /-- The entries are in order, and no position is taken twice. -/
  ordered : entries.Pairwise storage.Before

namespace SparseMatrix

variable {α : Type}

/-- The matrix of a shape that is collected from entries within it. -/
def ofEntries [Add α] (rows cols : Nat) (s : Storage) (entries : List (Entry α))
    (h : ∀ e ∈ entries, e.row < rows ∧ e.col < cols) : SparseMatrix α where
  rows := rows
  cols := cols
  storage := s
  entries := s.collect entries
  inBounds g hg := by
    obtain ⟨e, he, hrow, hcol⟩ := Storage.exists_samePosition_of_mem_collect hg
    rw [hrow, hcol]
    exact h e he
  ordered := s.pairwise_before_collect entries

/-- Passes if the places where the lines of a shape begin, and where the last one ends,
    can be addressed. The length of a line does not matter. -/
def checkLines (s : Storage) (rows cols : Nat) : Except Fault Unit :=
  Fault.checkAddressable (s.lines rows cols + 1)

/-- The matrix of a shape with given triplets, stored by column. -/
def ofTriplets? [Add α] (rows cols : Nat) (triplets : List (Entry α)) :
    Except Fault (SparseMatrix α) :=
  match h : triplets.find? fun e => !decide (e.row < rows ∧ e.col < cols) with
  | some e => .error (.outside e.row e.col)
  | none => do
    checkLines .byColumn rows cols
    return ofEntries rows cols .byColumn triplets fun e he => by
      simpa using List.find?_eq_none.1 h e he

/-- The same entries in a given order. -/
def reorder [Add α] (A : SparseMatrix α) (s : Storage) : SparseMatrix α :=
  ofEntries A.rows A.cols s A.entries A.inBounds

/-- The same entries in a given order, of whose lines there are not too many. -/
def reorder? [Add α] (A : SparseMatrix α) (s : Storage) : Except Fault (SparseMatrix α) := do
  checkLines s A.rows A.cols
  return A.reorder s

/-- Other values at the same positions. -/
def mapValues (A : SparseMatrix α) (f : Entry α → α) : SparseMatrix α where
  rows := A.rows
  cols := A.cols
  storage := A.storage
  entries := A.entries.map fun e => e.withValue (f e)
  inBounds e he := by
    obtain ⟨e', he', rfl⟩ := List.mem_map.1 he
    exact A.inBounds e' he'
  ordered := List.pairwise_map.2 (A.ordered.imp fun h =>
    (Storage.before_congr (Entry.samePosition_withValue _ _)
      (Entry.samePosition_withValue _ _)).2 h)

end SparseMatrix

end HybridGradient
