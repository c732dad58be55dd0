import HybridGradient.Scaled

/-!
# Balancing a problem

Scaling improves a problem whose coefficients differ much in magnitude. It is
done in passes; each computes a factor for every row and every column from the
nonzero magnitudes that the factors so far leave, and multiplies it into them.

* `Balance.geometricMean`: the factor is the geometric mean of the least and
  the greatest magnitude; the columns are balanced after the rows;
* `Balance.largest`: the factor is the root of the greatest magnitude; rows and
  columns are balanced from the same magnitudes, so that both roots together
  make up for it.

A factor that is not a positive number is replaced by one, and a small one by
the least factor that is allowed. `Scaled.balanced` applies the passes to a
problem; without any pass the problem stays as it is.
-/

namespace HybridGradient

/-- What a pass takes as the typical magnitude of a line. -/
inductive Balance where
  /-- The geometric mean of the least and the greatest magnitude. -/
  | geometricMean
  /-- The root of the greatest magnitude. -/
  | largest
  deriving Repr, DecidableEq

/-- The least and the greatest of the nonzero magnitudes in a line. -/
structure MagnitudeRange (α : Type) where
  /-- The least, infinite in an empty line. -/
  least : α
  /-- The greatest, zero in an empty line. -/
  greatest : α

namespace MagnitudeRange

variable {α : Type} [Scalar α]

/-- The range of a line without nonzero magnitudes. -/
def empty : MagnitudeRange α := ⟨Scalar.infinity, 0⟩

/-- The range with one more magnitude. -/
def insert (r : MagnitudeRange α) (v : α) : MagnitudeRange α :=
  ⟨Scalar.lesser r.least v, Scalar.greater r.greatest v⟩

/-- The ranges of `count` lines, the entries being assigned to them by `line`. -/
def ofLines (line : Entry α → Nat) (magnitude : Entry α → α) (count : Nat)
    (entries : List (Entry α)) : Array (MagnitudeRange α) :=
  entries.foldl
    (fun ranges e =>
      if 0 < magnitude e then ranges.modify (line e) (·.insert (magnitude e)) else ranges)
    (Array.replicate count empty)

/-- The range of all nonzero magnitudes of a matrix. -/
def ofMatrix (A : SparseMatrix α) : MagnitudeRange α :=
  A.entries.foldl
    (fun r e => if 0 < Scalar.abs e.value then r.insert (Scalar.abs e.value) else r) empty

@[simp] theorem size_ofLines (line : Entry α → Nat) (magnitude : Entry α → α) (count : Nat)
    (entries : List (Entry α)) : (ofLines line magnitude count entries).size = count := by
  have h (ranges : Array (MagnitudeRange α)) :
      (entries.foldl (fun ranges e =>
        if 0 < magnitude e then ranges.modify (line e) (·.insert (magnitude e)) else ranges)
        ranges).size = ranges.size := by
    induction entries generalizing ranges with
    | nil => rfl
    | cons e es ih =>
      rw [List.foldl_cons, ih]
      split
      · exact Array.size_modify
      · rfl
  exact (h _).trans Array.size_replicate

end MagnitudeRange

/-- The factors of the rows and the columns of a matrix. -/
structure Factors (α : Type) where
  /-- The factor of each row. -/
  rows : Vec α
  /-- The factor of each column. -/
  cols : Vec α

namespace Balance

variable {α : Type} [Scalar α]

/-- The factor for a line, none being less than `least`. -/
def factor (b : Balance) (least : α) (r : MagnitudeRange α) : α :=
  let typical := match b with
    | geometricMean => Scalar.sqrt (r.least * r.greatest)
    | largest => Scalar.sqrt r.greatest
  if Scalar.isFinite typical ∧ 0 < typical then Scalar.greater typical least else 1

end Balance

namespace Factors

variable {α : Type} [Scalar α]

/-- A factor of one for every line of a matrix. -/
def unit (A : SparseMatrix α) : Factors α := ⟨Vec.ones A.rows, Vec.ones A.cols⟩

/-- What the factors make of the value of an entry. -/
def scaledValue (f : Factors α) (e : Entry α) : α :=
  e.value / (f.rows.getD e.row 1 * f.cols.getD e.col 1)

/-- The magnitude of an entry after scaling. -/
def magnitude (f : Factors α) (e : Entry α) : α := Scalar.abs (f.scaledValue e)

/-- The factors of the rows, multiplied by those of a pass. -/
def balanceRows (f : Factors α) (b : Balance) (least : α) (A : SparseMatrix α) : Vec α :=
  Vec.times f.rows
    ((MagnitudeRange.ofLines Entry.row f.magnitude A.rows A.entries).map (b.factor least))

/-- The factors of the columns, multiplied by those of a pass. -/
def balanceCols (f : Factors α) (b : Balance) (least : α) (A : SparseMatrix α) : Vec α :=
  Vec.times f.cols
    ((MagnitudeRange.ofLines Entry.col f.magnitude A.cols A.entries).map (b.factor least))

/-- The factors after a pass. -/
def pass (b : Balance) (least : α) (A : SparseMatrix α) (f : Factors α) : Factors α :=
  match b with
  | .geometricMean =>
    let f := { f with rows := f.balanceRows b least A }
    { f with cols := f.balanceCols b least A }
  | .largest => ⟨f.balanceRows b least A, f.balanceCols b least A⟩

/-- The factors after a number of passes of one kind. -/
def passes (b : Balance) (least : α) (A : SparseMatrix α) (count : Nat) (f : Factors α) :
    Factors α :=
  count.repeat (pass b least A) f

/-- The factors that balance a matrix: first passes to the geometric mean, then
    passes to the greatest magnitude. -/
def balancing (A : SparseMatrix α) (means largests : Nat) (least : α) : Factors α :=
  passes .largest least A largests (passes .geometricMean least A means (unit A))

/-! ### Sizes -/

theorem size_pass (b : Balance) (least : α) {A : SparseMatrix α} {f : Factors α}
    (hr : f.rows.size = A.rows) (hc : f.cols.size = A.cols) :
    (pass b least A f).rows.size = A.rows ∧ (pass b least A f).cols.size = A.cols := by
  cases b <;> simp [pass, balanceRows, balanceCols, hr, hc]

theorem size_passes (b : Balance) (least : α) {A : SparseMatrix α} (count : Nat) {f : Factors α}
    (hr : f.rows.size = A.rows) (hc : f.cols.size = A.cols) :
    (passes b least A count f).rows.size = A.rows ∧
      (passes b least A count f).cols.size = A.cols := by
  induction count with
  | zero => exact ⟨hr, hc⟩
  | succ n ih => exact size_pass b least ih.1 ih.2

theorem size_balancing (A : SparseMatrix α) (means largests : Nat) (least : α) :
    (balancing A means largests least).rows.size = A.rows ∧
      (balancing A means largests least).cols.size = A.cols := by
  have h := size_passes .geometricMean least (A := A) (f := unit A) means
    (Vec.size_ones _) (Vec.size_ones _)
  exact size_passes .largest least largests h.1 h.2

end Factors

namespace Scaled

variable {α : Type} [Scalar α]

/-- A problem scaled by factors of its rows and columns. The matrix is stored by
    column. -/
def ofFactors (p : Problem α) (f : Factors α) (hr : f.rows.size = p.matrix.rows)
    (hc : f.cols.size = p.matrix.cols) : Scaled α where
  problem := {
    objective := Vec.divide f.cols p.objective
    matrix := (p.matrix.reorder .byColumn).mapValues f.scaledValue
    rightSide := Vec.divide f.rows p.rightSide
    equalities := p.equalities
    lower := image f.cols p.lower
    upper := image f.cols p.upper
    size_objective := by
      rw [Vec.size_divide, p.size_objective, hc]; exact Nat.min_self _
    size_rightSide := by
      rw [Vec.size_divide, p.size_rightSide, hr]; exact Nat.min_self _
    size_lower := by
      rw [size_image, p.size_lower, hc]; exact Nat.min_self _
    size_upper := by
      rw [size_image, p.size_upper, hc]; exact Nat.min_self _
    equalities_le := p.equalities_le }
  variableFactors := f.cols
  constraintFactors := f.rows

/-- A problem balanced by passes to the geometric mean and passes to the greatest
    magnitude, with no factor of a pass less than `least`. -/
def balanced (p : Problem α) (means largests : Nat) (least : α) : Scaled α :=
  if means = 0 ∧ largests = 0 then identity p
  else
    ofFactors p (Factors.balancing p.matrix means largests least)
      (Factors.size_balancing _ _ _ _).1 (Factors.size_balancing _ _ _ _).2

end Scaled

end HybridGradient
