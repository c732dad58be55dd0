import HybridGradient.Decimal.Text
import HybridGradient.Vec

/-!
# Records

What is known of an iterate that was examined: how far it is from being
optimal, measured in the space of the given problem, and what it took to come
there.

* `Table`: the records of a run, in the order of their iterations;
* `Row.ofCells`: a row of nine columns, of which each cell is set flush right in a
  column of at least some width, and one that is wider than its column is
  written whole;
* `Record.row`, `Row.header`: a record as a row, and what the rows stand under.
-/

namespace HybridGradient

/-- The examination of one iterate. -/
structure Record (α : Type) where
  /-- The number of steps before. -/
  iteration : Nat
  /-- The work before, a product with the matrix or its transpose being one unit. -/
  passes : Float
  /-- The seconds since the start. -/
  elapsed : Float
  /-- Both residuals and the gap in one number. -/
  error : α
  /-- The cost of the point. -/
  primalObjective : α
  /-- The bound on the cost that the multipliers give. -/
  dualObjective : α
  /-- The distance of the two objectives. -/
  gap : α
  /-- How far the point is from satisfying constraints and bounds. -/
  primalResidual : α
  /-- How far the multipliers are from satisfying the dual constraints. -/
  dualResidual : α
  /-- The length of the last move of the point. -/
  primalMove : α
  /-- The length of the last move of the multipliers. -/
  dualMove : α

/-! ### Tables -/

/-- Records of increasing iterations. -/
structure Table (α : Type) where
  /-- The records, from the first to the last. -/
  records : Array (Record α)
  /-- Each record is of a later iteration than those before it. -/
  increasing : records.toList.Pairwise fun r r' => r.iteration < r'.iteration

namespace Table

variable {α : Type}

/-- The table without records. -/
def empty : Table α := ⟨#[], List.Pairwise.nil⟩

instance : Inhabited (Table α) := ⟨empty⟩

/-- The number of records. -/
def size (t : Table α) : Nat := t.records.size

/-- Whether there is no record. -/
def isEmpty (t : Table α) : Bool := t.records.isEmpty

/-- The record at a place, counted from zero. -/
def get? (t : Table α) (i : Nat) : Option (Record α) := t.records[i]?

/-- The last record. -/
def last? (t : Table α) : Option (Record α) := t.records.back?

/-- The iterations of the records. -/
def iterations (t : Table α) : Array Nat := t.records.map (·.iteration)

/-- The iteration of every record is at most that of the last one. -/
theorem le_iteration_last {t : Table α} {r last : Record α} (hr : r ∈ t.records.toList)
    (hlast : t.last? = some last) : r.iteration ≤ last.iteration := by
  rw [last?, ← Array.getLast?_toList, List.getLast?_eq_some_iff] at hlast
  obtain ⟨init, hinit⟩ := hlast
  have hinc := t.increasing
  rw [hinit] at hr hinc
  rcases List.mem_append.1 hr with hr | hr
  · exact Nat.le_of_lt ((List.pairwise_append.1 hinc).2.2 r hr last List.mem_cons_self)
  · exact Nat.le_of_eq (congrArg Record.iteration (List.mem_singleton.1 hr))

/-- The table with one more record, if that is of a later iteration than the last
    one. -/
def push? (t : Table α) (r : Record α) : Except Fault (Table α) :=
  match h : t.last? with
  | none => .ok ⟨t.records.push r, by
      rw [last?, Array.back?_eq_none_iff] at h
      rw [h]
      exact List.pairwise_singleton _ _⟩
  | some last =>
    if hlt : last.iteration < r.iteration then
      .ok ⟨t.records.push r, by
        rw [Array.toList_push, List.pairwise_append]
        refine ⟨t.increasing, List.pairwise_singleton _ _, fun r' hr' r'' hr'' => ?_⟩
        rw [List.mem_singleton.1 hr'']
        exact Nat.lt_of_le_of_lt (le_iteration_last hr' h) hlt⟩
    else .error (.order last.iteration r.iteration)

end Table

/-! ### Rows -/

namespace Row

/-- The widths of the columns. -/
def widths : List Nat := [8, 10, 9, 9, 10, 10, 9, 9, 9]

/-- The names of the columns. -/
def headings : List String :=
  ["iter", "kkt_pass", "time", "kkt_err", "pri_obj", "dual_obj", "pri_res", "dual_res", "gap"]

/-- A text set flush right in a width, if it is not wider. -/
def flushRight (width : Nat) (text : String) : String :=
  String.ofList (List.replicate (width - text.length) ' ') ++ text

/-- Cells side by side, in their columns and with a blank between two of them. -/
def ofCells (cells : List String) : String :=
  String.intercalate " " (List.zipWith flushRight widths cells)

/-- The row of the names. -/
def header : String := ofCells headings

end Row

namespace Record

variable {α : Type} [Binary α]

/-- What a record shows in each column. -/
def cells (r : Record α) : List String :=
  [toString r.iteration, Binary.fixed 1 r.passes, Binary.fixed 3 r.elapsed,
    Binary.scientific 2 r.error, Binary.scientific 3 r.primalObjective,
    Binary.scientific 3 r.dualObjective, Binary.scientific 2 r.primalResidual,
    Binary.scientific 2 r.dualResidual, Binary.scientific 2 r.gap]

/-- The row of a record. -/
def row (r : Record α) : String := Row.ofCells r.cells

end Record

end HybridGradient
