import HybridGradient.Proofs.EntryOrder
import HybridGradient.Proofs.Guards

/-!
# The guarded program before its iteration

Balancing and the choice of the step size, with every length checked and every component looked
up. The scaled matrix is put together from triplets here, with the checks that this makes.

* `Guarded.estimate?_eq`: the power method does not fail;
* `Guarded.balanced?_eq`: neither does balancing, if the lines of the matrix can be addressed.
-/

namespace HybridGradient

variable {α : Type} [Scalar α]

namespace Guarded

/-! ### The power method -/

open SpectralNorm

/-- The image of a vector under `Aᵀ A`. -/
def gram? (A : SparseMatrix α) (v : Vec α) : Except Fault (Vec α) := do
  let w ← product? A 1 v 0 (Vec.zeros A.rows)
  transposeProduct? A 1 w 0 (Vec.zeros A.cols)

/-- The power method, `remaining` passes from pass `i` on. The image of the vector is copied into
    its place. -/
def powerMethodFrom? (A : SparseMatrix α) (tolerance : α) :
    (remaining : ℕ) → (i : ℕ) → (v : Vec α) → (square : α) → Except Fault (SpectralNorm.Outcome α)
  | 0, _, _, square => .ok (.estimated (Scalar.sqrt square) none)
  | remaining + 1, i, v, square => do
    let w ← gram? A v
    let length := Vec.norm w
    if length == 0 then return .annihilated
    else if ¬ 0 < length then return .estimated length none
    else
      let v ← Vec.copy? w v
      if Scalar.abs (length - square) ≤ tolerance * length then
        return .estimated (Scalar.sqrt length) (some i)
      else powerMethodFrom? A tolerance remaining (i + 1) (Vec.scale (Scalar.recip length) v) length

/-- The estimate from the first start vector, of those with the given seeds, that is not
    annihilated. -/
def estimateFrom? (A : SparseMatrix α) (passes : ℕ) (tolerance : α) :
    List ℕ → Except Fault (Estimate α)
  | [] => .ok ⟨0, [], none⟩
  | seed :: seeds => do
    match ← powerMethodFrom? A tolerance passes 0 (startVector A.cols (UInt64.ofNat seed)) 0 with
    | .estimated norm settledAt => return ⟨norm, [], settledAt⟩
    | .annihilated =>
      let e ← estimateFrom? A passes tolerance seeds
      return { e with annihilated := seed :: e.annihilated }

/-- The estimate of the norm of a matrix. -/
def estimate? (A : SparseMatrix α) (passes : ℕ) (tolerance : α) : Except Fault (Estimate α) :=
  if A.rows = 0 ∨ A.cols = 0 then .ok ⟨0, [], none⟩
  else estimateFrom? A passes tolerance [0, 1, 2]

/-- The step size for a matrix, and what happens when it is chosen. -/
def chooseStepSize? (par : Params α) (A : SparseMatrix α) :
    Except Fault (α × List (Event α)) :=
  match par.stepSize with
  | some t => .ok (t, [])
  | none => do
    let e ← estimate? A par.powerPasses.toNat par.powerTolerance
    return (Scalar.ofBinary64 stepSizeFactor / e.norm, e.events)

variable {A : SparseMatrix α} {tolerance : α}

theorem gram?_eq {v : Vec α} (hv : v.size = A.cols) : gram? A v = .ok (gram A v) := by
  have hsize : (A.product 1 v 0 (Vec.zeros A.rows)).size = A.rows := by
    rw [SparseMatrix.size_product, Vec.size_zeros]
  rw [gram?, product?_eq hv (Vec.size_zeros _), Fault.ok_bind,
    transposeProduct?_eq hsize (Vec.size_zeros _)]
  rfl

theorem powerMethodFrom?_eq (remaining i : ℕ) {v : Vec α} (hv : v.size = A.cols) (square : α) :
    powerMethodFrom? A tolerance remaining i v square =
      .ok (powerMethodFrom A tolerance remaining i v square) := by
  induction remaining generalizing i v square with
  | zero => rfl
  | succ remaining ih =>
    have hcopy : Vec.copy? (gram A v) v = .ok (gram A v) := by
      rw [Vec.copy?, size_gram, hv, Fault.checkLength_self]
      rfl
    rw [powerMethodFrom?, powerMethodFrom, gram?_eq hv, Fault.ok_bind]
    dsimp only
    split
    · rfl
    · split
      · rfl
      · rw [hcopy, Fault.ok_bind]
        split
        · rfl
        · exact ih _ (by rw [Vec.size_scale, size_gram]) _

theorem estimateFrom?_eq (passes : ℕ) (seeds : List ℕ) :
    estimateFrom? A passes tolerance seeds = .ok (estimateFrom A passes tolerance seeds) := by
  induction seeds with
  | nil => rfl
  | cons seed seeds ih =>
    have hsize : (startVector A.cols (UInt64.ofNat seed) : Vec α).size = A.cols := by
      rw [startVector, Vec.size_scale, Array.size_ofFn]
    rw [estimateFrom?, powerMethodFrom?_eq _ _ hsize, Fault.ok_bind, estimateFrom, powerMethod]
    cases powerMethodFrom A tolerance passes 0 (startVector A.cols (UInt64.ofNat seed)) 0 with
    | estimated norm settledAt => rfl
    | annihilated =>
      dsimp only
      rw [ih]
      rfl

theorem estimate?_eq (A : SparseMatrix α) (passes : ℕ) (tolerance : α) :
    estimate? A passes tolerance = .ok (estimate A passes tolerance) := by
  rw [estimate?, estimate]
  split
  · rfl
  · exact estimateFrom?_eq _ _

theorem chooseStepSize?_eq (par : Params α) (A : SparseMatrix α) :
    chooseStepSize? par A = .ok (par.chooseStepSize A) := by
  rw [chooseStepSize?, Params.chooseStepSize]
  cases par.stepSize with
  | some t => rfl
  | none =>
    dsimp only
    rw [estimate?_eq]
    rfl

/-! ### Balancing -/

/-- What the factors make of the value of an entry, both being looked up. -/
def scaledValue? (f : Factors α) (e : Entry α) : Except Fault α := do
  let r ← lookup? f.rows e.row
  let c ← lookup? f.cols e.col
  return e.value / (r * c)

/-- The ranges of lines, those of the nonzero entries being looked up and extended. -/
def ofLines? (line : Entry α → ℕ) (f : Factors α) (entries : List (Entry α))
    (ranges : Array (MagnitudeRange α)) : Except Fault (Array (MagnitudeRange α)) :=
  entries.foldlM (fun ranges e => do
    let magnitude := Scalar.abs (← scaledValue? f e)
    if 0 < magnitude then
      if h : line e < ranges.size then
        return ranges.set (line e) (ranges[line e].insert magnitude)
      else throw (.outside e.row e.col)
    else return ranges) ranges

/-- The factors of the rows, multiplied by those of a pass. -/
def balanceRows? (f : Factors α) (b : Balance) (least : α) (A : SparseMatrix α) :
    Except Fault (Vec α) := do
  let ranges ← ofLines? Entry.row f A.entries (Array.replicate A.rows .empty)
  return Vec.times f.rows (ranges.map (b.factor least))

/-- The factors of the columns, multiplied by those of a pass. -/
def balanceCols? (f : Factors α) (b : Balance) (least : α) (A : SparseMatrix α) :
    Except Fault (Vec α) := do
  let ranges ← ofLines? Entry.col f A.entries (Array.replicate A.cols .empty)
  return Vec.times f.cols (ranges.map (b.factor least))

/-- The factors after a pass. -/
def pass? (b : Balance) (least : α) (A : SparseMatrix α) (f : Factors α) :
    Except Fault (Factors α) :=
  match b with
  | .geometricMean => do
    let f : Factors α := { f with rows := ← balanceRows? f b least A }
    return { f with cols := ← balanceCols? f b least A }
  | .largest => do
    let rows ← balanceRows? f b least A
    let cols ← balanceCols? f b least A
    return ⟨rows, cols⟩

/-- The factors after a number of passes of one kind. -/
def passes? (b : Balance) (least : α) (A : SparseMatrix α) (f : Factors α) :
    ℕ → Except Fault (Factors α)
  | 0 => .ok f
  | count + 1 => do
    let f ← passes? b least A f count
    pass? b least A f

/-- The factors that balance a matrix. -/
def balancing? (A : SparseMatrix α) (means largests : ℕ) (least : α) :
    Except Fault (Factors α) := do
  let f ← passes? .geometricMean least A (.unit A) means
  passes? .largest least A f largests

/-- The linear program with given data, the sizes of which fit together. -/
def problem? (objective : Vec α) (matrix : SparseMatrix α) (rightSide : Vec α) (equalities : ℕ)
    (lower upper : Vec α) : Except Fault (Problem α) :=
  if h : objective.size = matrix.cols ∧ rightSide.size = matrix.rows ∧
      lower.size = matrix.cols ∧ upper.size = matrix.cols ∧ equalities ≤ matrix.rows then
    .ok {
      objective, matrix, rightSide, equalities, lower, upper
      size_objective := h.1
      size_rightSide := h.2.1
      size_lower := h.2.2.1
      size_upper := h.2.2.2.1
      equalities_le := h.2.2.2.2 }
  else .error (.length matrix.cols objective.size)

/-- A problem scaled by factors of its rows and columns. -/
def ofFactors? (p : Problem α) (f : Factors α) : Except Fault (Scaled α) := do
  let triplets ← p.matrix.entries.mapM fun e => do return e.withValue (← scaledValue? f e)
  let matrix ← SparseMatrix.ofTriplets? p.matrix.rows p.matrix.cols triplets
  let objective ← Vec.divide? f.cols p.objective
  let rightSide ← Vec.divide? f.rows p.rightSide
  let lower ← image? f.cols p.lower
  let upper ← image? f.cols p.upper
  let problem ← problem? objective matrix rightSide p.equalities lower upper
  return ⟨problem, f.cols, f.rows⟩

/-- A problem balanced by passes to the geometric mean and passes to the greatest magnitude. -/
def balanced? (p : Problem α) (means largests : ℕ) (least : α) : Except Fault (Scaled α) :=
  if means = 0 ∧ largests = 0 then .ok (Scaled.identity p)
  else do
    let f ← balancing? p.matrix means largests least
    ofFactors? p f

variable {f : Factors α} {least : α}

theorem scaledValue?_eq {e : Entry α} (hrow : e.row < f.rows.size) (hcol : e.col < f.cols.size) :
    scaledValue? f e = .ok (f.scaledValue e) := by
  rw [scaledValue?, lookup?_eq hrow, lookup?_eq hcol, Factors.scaledValue,
    Array.getD_eq_getD_getElem?, Array.getD_eq_getD_getElem?, Array.getElem?_eq_getElem hrow,
    Array.getElem?_eq_getElem hcol]
  rfl

theorem ofLines?_eq {line : Entry α → ℕ} {entries : List (Entry α)}
    {ranges : Array (MagnitudeRange α)} (hf : ∀ e ∈ entries,
      e.row < f.rows.size ∧ e.col < f.cols.size ∧ line e < ranges.size) :
    ofLines? line f entries ranges = .ok (entries.foldl (fun ranges e =>
      if 0 < f.magnitude e then ranges.modify (line e) (·.insert (f.magnitude e)) else ranges)
      ranges) := by
  refine foldlM_eq (fun w => w.size = ranges.size) (fun e he w hw => ?_) rfl
  obtain ⟨hrow, hcol, hline⟩ := hf e he
  rw [← hw] at hline
  rw [scaledValue?_eq hrow hcol, Fault.ok_bind]
  dsimp only
  rw [← Factors.magnitude]
  split
  · exact ⟨congrArg Except.ok (set_eq_modify hline (·.insert (f.magnitude e))),
      Array.size_modify.trans hw⟩
  · exact ⟨rfl, hw⟩

omit [Scalar α] in
/-- The entries of a matrix have factors, if there is one for each of its lines. -/
theorem exists_factors (hr : f.rows.size = A.rows) (hc : f.cols.size = A.cols) {e : Entry α}
    (he : e ∈ A.entries) : e.row < f.rows.size ∧ e.col < f.cols.size := by
  rw [hr, hc]
  exact A.inBounds e he

variable (hr : f.rows.size = A.rows) (hc : f.cols.size = A.cols)

include hr hc

theorem balanceRows?_eq (b : Balance) :
    balanceRows? f b least A = .ok (f.balanceRows b least A) := by
  rw [balanceRows?, ofLines?_eq fun e he => ⟨(exists_factors hr hc he).1,
    (exists_factors hr hc he).2, by rw [Array.size_replicate]; exact (A.inBounds e he).1⟩]
  rfl

theorem balanceCols?_eq (b : Balance) :
    balanceCols? f b least A = .ok (f.balanceCols b least A) := by
  rw [balanceCols?, ofLines?_eq fun e he => ⟨(exists_factors hr hc he).1,
    (exists_factors hr hc he).2, by rw [Array.size_replicate]; exact (A.inBounds e he).2⟩]
  rfl

theorem pass?_eq (b : Balance) : pass? b least A f = .ok (Factors.pass b least A f) := by
  cases b with
  | geometricMean =>
    have hrows : ({ f with rows := f.balanceRows .geometricMean least A } : Factors α).rows.size =
        A.rows := (Factors.size_pass .geometricMean least hr hc).1
    rw [pass?, balanceRows?_eq hr hc, Fault.ok_bind]
    dsimp only
    rw [balanceCols?_eq hrows hc]
    rfl
  | largest =>
    rw [pass?, balanceRows?_eq hr hc, Fault.ok_bind, balanceCols?_eq hr hc]
    rfl

theorem passes?_eq (b : Balance) (count : ℕ) :
    passes? b least A f count = .ok (Factors.passes b least A count f) := by
  induction count with
  | zero => rfl
  | succ count ih =>
    obtain ⟨hr', hc'⟩ := Factors.size_passes b least count hr hc
    rw [passes?, ih, Fault.ok_bind, pass?_eq hr' hc']
    rfl

omit hr hc in
theorem balancing?_eq (A : SparseMatrix α) (means largests : ℕ) (least : α) :
    balancing? A means largests least = .ok (Factors.balancing A means largests least) := by
  have hunit : (Factors.unit A).rows.size = A.rows ∧ (Factors.unit A).cols.size = A.cols :=
    ⟨Vec.size_ones _, Vec.size_ones _⟩
  obtain ⟨hr, hc⟩ := Factors.size_passes .geometricMean least means hunit.1 hunit.2
  rw [balancing?, passes?_eq hunit.1 hunit.2, Fault.ok_bind, passes?_eq hr hc]
  rfl

omit [Scalar α] hr hc in
/-- A problem is put together from its own data. -/
theorem problem?_eq (p : Problem α) :
    problem? p.objective p.matrix p.rightSide p.equalities p.lower p.upper = .ok p :=
  dif_pos ⟨p.size_objective, p.size_rightSide, p.size_lower, p.size_upper, p.equalities_le⟩

omit hr hc in
/-- Scaling does not fail, if the lines of the matrix can be addressed. -/
theorem ofFactors?_eq {p : Problem α}
    (hlines : SparseMatrix.checkLines .byColumn p.matrix.rows p.matrix.cols = .ok ())
    (hr : f.rows.size = p.matrix.rows) (hc : f.cols.size = p.matrix.cols) :
    ofFactors? p f = .ok (Scaled.ofFactors p f hr hc) := by
  have htriplets : p.matrix.entries.mapM (fun e => do
      return e.withValue (← scaledValue? f e)) =
        .ok (p.matrix.entries.map fun e => e.withValue (f.scaledValue e)) :=
    mapM_eq fun e he => by
      obtain ⟨hrow, hcol⟩ := exists_factors hr hc he
      rw [scaledValue?_eq hrow hcol]
      rfl
  have hbounds : ∀ e ∈ p.matrix.entries.map (fun e => e.withValue (f.scaledValue e)),
      e.row < p.matrix.rows ∧ e.col < p.matrix.cols := by
    intro e he
    obtain ⟨e', he', rfl⟩ := List.mem_map.1 he
    exact p.matrix.inBounds e' he'
  have hproblem := problem?_eq (Scaled.ofFactors p f hr hc).problem
  rw [ofFactors?, htriplets, Fault.ok_bind, SparseMatrix.ofTriplets?_eq hbounds hlines,
    Fault.ok_bind, SparseMatrix.ofEntries_map, divide?_eq (hc.trans p.size_objective.symm),
    Fault.ok_bind, divide?_eq (hr.trans p.size_rightSide.symm), Fault.ok_bind,
    image?_eq (hc.trans p.size_lower.symm), Fault.ok_bind,
    image?_eq (hc.trans p.size_upper.symm), Fault.ok_bind]
  change problem? (Scaled.ofFactors p f hr hc).problem.objective
    (Scaled.ofFactors p f hr hc).problem.matrix (Scaled.ofFactors p f hr hc).problem.rightSide
    (Scaled.ofFactors p f hr hc).problem.equalities (Scaled.ofFactors p f hr hc).problem.lower
    (Scaled.ofFactors p f hr hc).problem.upper >>= _ = _
  rw [hproblem]
  rfl

omit hr hc in
/-- Balancing does not fail, if the lines of the matrix can be addressed. -/
theorem balanced?_eq {p : Problem α}
    (hlines : SparseMatrix.checkLines .byColumn p.matrix.rows p.matrix.cols = .ok ())
    (means largests : ℕ) (least : α) :
    balanced? p means largests least = .ok (Scaled.balanced p means largests least) := by
  rw [balanced?, Scaled.balanced]
  split
  · rfl
  · rw [balancing?_eq, Fault.ok_bind]
    exact ofFactors?_eq hlines _ _

end Guarded

end HybridGradient
