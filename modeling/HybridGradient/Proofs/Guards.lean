import HybridGradient.Proofs.Run

/-!
# The guarded program

The operations of the method once more, as a machine carries them out: every length that has to
fit is checked where it is needed, every component is looked up in its vector before it is read
or written, and whatever is not there is a fault. The operations of the library do without
these checks inside a loop. Where everything fits, the guarded ones do not fail, and both answer
the same.

* `Guarded.lookup?`, `Guarded.loop?`, `Guarded.build?`: a component, and loops over places;
* `Guarded.product?`, `Guarded.step?`, `Guarded.evaluate?`: the products, the step and the
  examination, each followed by the theorem that it does not fail where everything fits.
-/

namespace HybridGradient

variable {α : Type}

namespace Guarded

/-! ### Loops -/

/-- The component at a place, if there is one. -/
def lookup? {β : Type} (v : Array β) (j : ℕ) : Except Fault β :=
  if h : j < v.size then .ok v[j] else .error (.length (j + 1) v.size)

theorem lookup?_eq {β : Type} {v : Array β} {j : ℕ} (h : j < v.size) : lookup? v j = .ok v[j] :=
  dif_pos h

/-- Passes if the components from a place on can be cut off. -/
def checkSplit (place size : ℕ) : Except Fault Unit :=
  if place ≤ size then .ok () else .error (.length place size)

/-- A loop over the places before a number, from the first to the last. -/
def loop? {β : Type} (f : β → ℕ → Except Fault β) (b : β) : (count : ℕ) → Except Fault β
  | 0 => .ok b
  | count + 1 => do
    let b ← loop? f b count
    f b count

/-- A loop that does not fail goes through the components of a vector. -/
theorem loop?_eq {β γ : Type} {f : β → ℕ → Except Fault β} {g : β → γ → β} {v : Array γ}
    (h : ∀ (b : β) (j : ℕ) (hj : j < v.size), f b j = .ok (g b v[j])) (b : β) :
    loop? f b v.size = .ok (v.foldl g b) := by
  -- By induction on the places that the loop has gone through.
  have key (count : ℕ) (hcount : count ≤ v.size) :
      loop? f b count = .ok ((v.toList.take count).foldl g b) := by
    induction count with
    | zero => rfl
    | succ count ih =>
      have hlt : count < v.toList.length := hcount
      rw [loop?, ih (Nat.le_of_succ_le hcount), Fault.ok_bind, h _ count hcount,
        List.take_succ_eq_append_getElem hlt, List.foldl_append, Array.getElem_toList]
      rfl
  rw [key v.size (Nat.le_refl _), ← Array.foldl_toList, ← Array.length_toList, List.take_length]

/-- The vector of what a loop computes at the places before a number. -/
def build? {β : Type} (f : ℕ → Except Fault β) (count : ℕ) : Except Fault (Array β) :=
  loop? (fun v j => do return v.push (← f j)) #[] count

theorem build?_eq {β : Type} {f : ℕ → Except Fault β} {v : Array β}
    (h : ∀ (j : ℕ) (hj : j < v.size), f j = .ok v[j]) : build? f v.size = .ok v := by
  rw [build?, loop?_eq (g := Array.push) (v := v) fun w j hj => by rw [h j hj]; rfl,
    Array.foldl_push_eq_append rfl]
  simp

/-- A fold over a list that does not fail, as long as something is kept. -/
theorem foldlM_eq {β γ : Type} {f : β → γ → Except Fault β} {g : β → γ → β} (P : β → Prop)
    {es : List γ} (h : ∀ e ∈ es, ∀ b, P b → f b e = .ok (g b e) ∧ P (g b e)) {b : β} (hb : P b) :
    es.foldlM f b = .ok (es.foldl g b) := by
  induction es generalizing b with
  | nil => rfl
  | cons e es ih =>
    obtain ⟨hf, hg⟩ := h e List.mem_cons_self b hb
    rw [List.foldlM_cons, hf, Fault.ok_bind]
    exact ih (fun e' he' => h e' (List.mem_cons_of_mem _ he')) hg

theorem mapM_eq {β γ : Type} {f : β → Except Fault γ} {g : β → γ} {es : List β}
    (h : ∀ e ∈ es, f e = .ok (g e)) : es.mapM f = .ok (es.map g) := by
  induction es with
  | nil => rfl
  | cons e es ih =>
    rw [List.mapM_cons, h e List.mem_cons_self, Fault.ok_bind,
      ih fun e' he' => h e' (List.mem_cons_of_mem _ he')]
    rfl

/-- A component that is written at a place that is there. -/
theorem set_eq_modify {β : Type} {v : Array β} {j : ℕ} (h : j < v.size) (f : β → β) :
    v.set j (f v[j]) = v.modify j f := by
  refine Array.ext (by simp) fun i hi hi' => ?_
  rw [Array.getElem_set, Array.getElem_modify]
  split
  · rename_i heq
    subst heq
    rfl
  · rfl

variable [Scalar α]

/-! ### Vectors and matrices -/

theorem add?_eq (a : α) {x y : Vec α} (h : x.size = y.size) :
    Vec.add? a x y = .ok (Vec.add a x y) := by
  rw [Vec.add?, h, Fault.checkLength_self]
  rfl

theorem inner?_eq {x y : Vec α} (h : x.size = y.size) :
    Vec.inner? x y = .ok (Vec.inner x y) := by
  rw [Vec.inner?, h, Fault.checkLength_self]
  rfl

theorem divide?_eq {d x : Vec α} (h : d.size = x.size) :
    Vec.divide? d x = .ok (Vec.divide d x) := by
  rw [Vec.divide?, h, Fault.checkLength_self]
  rfl

/-- The multiple of a vector by a diagonal matrix of factors, both being looked up. -/
def image? (factors x : Vec α) : Except Fault (Vec α) := do
  let zeros := Vec.zeros x.size
  Fault.checkLength factors.size x.size
  Fault.checkLength factors.size zeros.size
  build? (fun j => do
    return 1 * (← lookup? factors j) * (← lookup? x j) + 0 * (← lookup? zeros j)) zeros.size

theorem image?_eq {factors x : Vec α} (h : factors.size = x.size) :
    image? factors x = .ok (Scaled.image factors x) := by
  have hzeros : (Vec.zeros x.size : Vec α).size = x.size := Vec.size_zeros _
  have hsize : (Scaled.image factors x).size = x.size := by
    rw [Scaled.size_image, h, Nat.min_self]
  rw [image?, hzeros, h, Fault.checkLength_self, Fault.ok_bind, Fault.ok_bind, ← hsize]
  refine build?_eq fun j hj => ?_
  rw [hsize] at hj ⊢
  rw [lookup?_eq (by rwa [h]), lookup?_eq hj, lookup?_eq (by rwa [hzeros])]
  simp only [Scaled.image, Vec.addDiagonal, Array.getElem_zipWith]
  rfl

/-- Adds the share of every entry, whose two places are looked up. -/
def accumulate? (target source : Entry α → ℕ) (alpha : α) (x : Vec α) (entries : List (Entry α))
    (y : Vec α) : Except Fault (Vec α) :=
  entries.foldlM (fun y e => do
    let a ← lookup? x (source e)
    if h : target e < y.size then
      return y.set (target e) (y[target e] + alpha * e.value * a)
    else throw (.outside e.row e.col)) y

theorem accumulate?_eq {target source : Entry α → ℕ} {alpha : α} {x y : Vec α}
    {entries : List (Entry α)} (h : ∀ e ∈ entries, target e < y.size ∧ source e < x.size) :
    accumulate? target source alpha x entries y =
      .ok (SparseMatrix.accumulate target source alpha x entries y) := by
  refine foldlM_eq (fun w => w.size = y.size) (fun e he w hw => ?_) rfl
  obtain ⟨htarget, hsource⟩ := h e he
  rw [← hw] at htarget
  rw [lookup?_eq hsource, Fault.ok_bind, dif_pos htarget, Array.getD_eq_getD_getElem?,
    Array.getElem?_eq_getElem hsource, Option.getD_some]
  exact ⟨congrArg Except.ok (set_eq_modify htarget (· + alpha * e.value * x[source e])),
    Array.size_modify.trans hw⟩

/-- The product `alpha * A * x + beta * y`. -/
def product? (A : SparseMatrix α) (alpha : α) (x : Vec α) (beta : α) (y : Vec α) :
    Except Fault (Vec α) := do
  Fault.checkLength A.cols x.size
  Fault.checkLength A.rows y.size
  accumulate? Entry.row Entry.col alpha x A.entries (SparseMatrix.preset beta y)

/-- The product `alpha * Aᵀ * x + beta * y`. -/
def transposeProduct? (A : SparseMatrix α) (alpha : α) (x : Vec α) (beta : α) (y : Vec α) :
    Except Fault (Vec α) := do
  Fault.checkLength A.rows x.size
  Fault.checkLength A.cols y.size
  accumulate? Entry.col Entry.row alpha x A.entries (SparseMatrix.preset beta y)

variable {A : SparseMatrix α} {alpha beta : α} {x y : Vec α}

theorem product?_eq (hx : x.size = A.cols) (hy : y.size = A.rows) :
    product? A alpha x beta y = .ok (A.product alpha x beta y) := by
  rw [product?, hx, hy, Fault.checkLength_self, Fault.checkLength_self, Fault.ok_bind,
    Fault.ok_bind]
  exact accumulate?_eq fun e he => by
    rw [SparseMatrix.size_preset, hx, hy]
    exact A.inBounds e he

theorem transposeProduct?_eq (hx : x.size = A.rows) (hy : y.size = A.cols) :
    transposeProduct? A alpha x beta y = .ok (A.transposeProduct alpha x beta y) := by
  rw [transposeProduct?, hx, hy, Fault.checkLength_self, Fault.checkLength_self, Fault.ok_bind,
    Fault.ok_bind]
  exact accumulate?_eq fun e he => by
    rw [SparseMatrix.size_preset, hx, hy]
    exact (A.inBounds e he).symm

/-! ### The step -/

/-- The projection of a point, whose components are clamped one after the other. -/
def projectPrimal? (p : Problem α) (x : Vec α) : Except Fault (Vec α) := do
  Fault.checkLength x.size p.lower.size
  build? (fun j => do
    let v ← lookup? x j
    let l ← lookup? p.lower j
    let u ← lookup? p.upper j
    return Scalar.clamp l u v) x.size

theorem projectPrimal?_eq {p : Problem α} (hx : x.size = p.cols) :
    projectPrimal? p x = .ok (p.projectPrimal x) := by
  have hsize : (p.projectPrimal x).size = x.size := (p.size_projectPrimal hx).trans hx.symm
  rw [projectPrimal?, p.size_lower, hx, Problem.cols, Fault.checkLength_self, Fault.ok_bind,
    ← p.size_projectPrimal hx]
  refine build?_eq fun j hj => ?_
  have hlower : j < p.lower.size := by rw [p.size_lower, ← p.size_projectPrimal hx]; exact hj
  have hupper : j < p.upper.size := by rw [p.size_upper, ← p.size_projectPrimal hx]; exact hj
  rw [lookup?_eq (hsize ▸ hj), lookup?_eq hlower, lookup?_eq hupper]
  simp [Problem.projectPrimal, Array.getElem_zip]
  rfl

/-- The next iterate. -/
def step? (p : Problem α) (t : α) (z : Iterate α) : Except Fault (Iterate α) := do
  Fault.checkLength p.cols z.primal.size
  Fault.checkLength p.rows z.dual.size
  let moved ← Vec.add? (-t) p.objective z.primal
  let moved ← transposeProduct? p.matrix t z.dual 1 moved
  let new ← projectPrimal? p moved
  let extra ← Vec.add? (-1) z.primal (Vec.scale (1 + 1) new)
  let dual ← product? p.matrix (-t) extra 1 z.dual
  let dual ← Vec.add? t p.rightSide dual
  return ⟨new, ← p.projectDual? dual⟩

theorem step?_eq {p : Problem α} {t : α} {z : Iterate α} (hz : z.Fits p.rows p.cols) :
    step? p t z = .ok (p.step t z) := by
  have hp := hz.primal
  have hd := hz.dual
  have hmoved : (Vec.add (-t) p.objective z.primal).size = p.cols := by
    rw [Vec.size_add, hp, p.size_objective, Problem.cols, Nat.min_self]
  have hproduct : (p.matrix.transposeProduct t z.dual 1
      (Vec.add (-t) p.objective z.primal)).size = p.cols := by
    rw [SparseMatrix.size_transposeProduct, hmoved]
  have hnew : (p.stepPrimal t z).size = p.cols := p.size_projectPrimal hproduct
  have hextra : (Problem.extrapolate z.primal (p.stepPrimal t z)).size = p.cols := by
    rw [Problem.extrapolate, Vec.size_add, Vec.size_scale, hnew, hp, Nat.min_self]
  have hdual : (p.matrix.product (-t) (Problem.extrapolate z.primal (p.stepPrimal t z)) 1
      z.dual).size = p.rows := by
    rw [SparseMatrix.size_product, hd]
  have hscale : z.primal.size = (Vec.scale (1 + 1) (p.stepPrimal t z)).size := by
    rw [Vec.size_scale, hnew, hp]
  have hequalities : p.equalities ≤ (Vec.add t p.rightSide (p.matrix.product (-t)
      (Problem.extrapolate z.primal (p.stepPrimal t z)) 1 z.dual)).size := by
    rw [Vec.size_add, hdual, p.size_rightSide, Problem.rows, Nat.min_self]
    exact p.equalities_le
  rw [step?, hp, hd, Fault.checkLength_self, Fault.checkLength_self, Fault.ok_bind, Fault.ok_bind,
    add?_eq _ (p.size_objective.trans hp.symm), Fault.ok_bind, transposeProduct?_eq hd hmoved,
    Fault.ok_bind, projectPrimal?_eq hproduct, Fault.ok_bind]
  change (Vec.add? (-1) z.primal (Vec.scale (1 + 1) (p.stepPrimal t z)) >>= _) = _
  rw [add?_eq _ hscale, Fault.ok_bind]
  change (product? p.matrix (-t) (Problem.extrapolate z.primal (p.stepPrimal t z)) 1 z.dual >>= _)
    = _
  rw [product?_eq hextra hd, Fault.ok_bind, add?_eq _ (p.size_rightSide.trans hdual.symm),
    Fault.ok_bind, Problem.projectDual?, if_pos hequalities]
  rfl

/-! ### Examinations -/

section

variable (s : Scaled α)

/-- The bounds of each variable in the space of the given problem. -/
def bounds? : Except Fault (Array (α × α)) := do
  return Array.zip (← s.unscalePrimal? s.problem.lower) (← s.unscalePrimal? s.problem.upper)

/-- The violation of each constraint at a scaled point, from the inequalities on without sign. -/
def rowViolations? (x : Vec α) : Except Fault (Vec α) := do
  let excess ← product? s.problem.matrix 1 x (-1) s.problem.rightSide
  let excess := Vec.times excess s.constraintFactors
  checkSplit s.problem.equalities excess.size
  return excess.mapIdx fun i e => if i < s.problem.equalities then e else Scalar.positivePart (-e)

/-- The violation of the bounds of each variable at a scaled point. -/
def boundViolations? (x : Vec α) : Except Fault (Vec α) := do
  let x ← s.unscalePrimal? x
  let bounds ← bounds? s
  build? (fun j => do return boundViolation (← lookup? bounds j) (← lookup? x j)) s.problem.cols

/-- The reduced cost of each variable at scaled multipliers. -/
def reducedCosts? (y : Vec α) : Except Fault (Vec α) := do
  return Vec.times (← transposeProduct? s.problem.matrix (-1) y 1 s.problem.objective)
    s.variableFactors

/-- The violation of the dual constraint of each variable at scaled multipliers. -/
def costViolations? (y : Vec α) : Except Fault (Vec α) := do
  let costs ← reducedCosts? s y
  let bounds ← bounds? s
  build? (fun j => do return unabsorbed (← lookup? bounds j) (← lookup? costs j)) s.problem.cols

/-- The contribution of the bounds to the dual objective. -/
def boundCost? (y : Vec α) : Except Fault α := do
  let costs ← reducedCosts? s y
  let bounds ← bounds? s
  loop? (fun sum j => do return addBoundCost sum (← lookup? bounds j) (← lookup? costs j)) 0
    s.problem.cols

/-- What the multiplier of each inequality is below zero. -/
def signViolations? (y : Vec α) : Except Fault (Vec α) := do
  let y ← s.unscaleDual? y
  checkSplit s.problem.equalities y.size
  Fault.checkLength y.size s.problem.rows
  return (y.extract s.problem.equalities).map fun v => Scalar.positivePart (-v)

/-- The examination of a scaled iterate and the displacement that led to it. -/
def evaluate? (z move : Iterate α) (iteration : ℕ) (passes elapsed : Float) :
    Except Fault (Record α) := do
  let rows ← rowViolations? s z.primal
  let bounds ← boundViolations? s z.primal
  let costs ← costViolations? s z.dual
  let boundCost ← boundCost? s z.dual
  let signs ← signViolations? s z.dual
  let primalObjective ← Vec.inner? s.problem.objective z.primal
  let pairing ← Vec.inner? s.problem.rightSide z.dual
  let dx ← s.unscalePrimal? move.primal
  let dy ← s.unscaleDual? move.dual
  let dualObjective := pairing + boundCost
  let gap := Scalar.abs (primalObjective - dualObjective)
  let primalResidual := Scalar.hypot (Vec.norm rows) (Vec.norm bounds)
  let dualResidual := Scalar.hypot (Vec.norm costs) (Vec.norm signs)
  return {
    iteration, passes, elapsed, primalObjective, dualObjective, gap, primalResidual, dualResidual
    error := Scalar.sqrt
      (primalResidual * primalResidual + dualResidual * dualResidual + gap * gap)
    primalMove := Vec.norm dx
    dualMove := Vec.norm dy }

variable {s} (hs : s.Fits) {x y : Vec α}

include hs

theorem unscalePrimal?_eq (hx : x.size = s.problem.cols) :
    s.unscalePrimal? x = .ok (s.unscalePrimal x) := by
  rw [Scaled.unscalePrimal?, hs.variableFactors, hx, Fault.checkLength_self]
  rfl

theorem unscaleDual?_eq (hy : y.size = s.problem.rows) :
    s.unscaleDual? y = .ok (s.unscaleDual y) := by
  rw [Scaled.unscaleDual?, hs.constraintFactors, hy, Fault.checkLength_self]
  rfl

theorem size_unscalePrimal (hx : x.size = s.problem.cols) :
    (s.unscalePrimal x).size = s.problem.cols := by
  rw [Scaled.unscalePrimal, Vec.size_divide, hs.variableFactors, hx, Nat.min_self]

theorem size_unscaleDual (hy : y.size = s.problem.rows) :
    (s.unscaleDual y).size = s.problem.rows := by
  rw [Scaled.unscaleDual, Vec.size_divide, hs.constraintFactors, hy, Nat.min_self]

theorem bounds?_eq : bounds? s = .ok s.bounds := by
  rw [bounds?, unscalePrimal?_eq hs s.problem.size_lower, Fault.ok_bind,
    unscalePrimal?_eq hs s.problem.size_upper]
  rfl

theorem size_bounds : s.bounds.size = s.problem.cols := by
  rw [Scaled.bounds, Array.size_zip, size_unscalePrimal hs s.problem.size_lower,
    size_unscalePrimal hs s.problem.size_upper, Nat.min_self]

theorem rowViolations?_eq (hx : x.size = s.problem.cols) :
    rowViolations? s x = .ok (s.rowViolations x) := by
  have hsplit : s.problem.equalities ≤ (Vec.times (s.problem.matrix.product 1 x (-1)
      s.problem.rightSide) s.constraintFactors).size := by
    rw [Vec.size_times, SparseMatrix.size_product, s.problem.size_rightSide, hs.constraintFactors,
      Problem.rows, Nat.min_self]
    exact s.problem.equalities_le
  rw [rowViolations?, product?_eq hx s.problem.size_rightSide, Fault.ok_bind]
  dsimp only
  rw [checkSplit, if_pos hsplit]
  rfl

theorem boundViolations?_eq (hx : x.size = s.problem.cols) :
    boundViolations? s x = .ok (s.boundViolations x) := by
  have hsize : (s.boundViolations x).size = s.problem.cols := by
    rw [Scaled.boundViolations, Array.size_zipWith, size_bounds hs, size_unscalePrimal hs hx,
      Nat.min_self]
  rw [boundViolations?, unscalePrimal?_eq hs hx, Fault.ok_bind, bounds?_eq hs, Fault.ok_bind,
    ← hsize]
  refine build?_eq fun j hj => ?_
  rw [hsize] at hj
  rw [lookup?_eq (by rwa [size_bounds hs]), lookup?_eq (by rwa [size_unscalePrimal hs hx])]
  simp only [Scaled.boundViolations, Array.getElem_zipWith]
  rfl

omit hs in
theorem reducedCosts?_eq (hy : y.size = s.problem.rows) :
    reducedCosts? s y = .ok (s.reducedCosts y) := by
  rw [reducedCosts?, transposeProduct?_eq hy s.problem.size_objective]
  rfl

theorem size_reducedCosts (y : Vec α) : (s.reducedCosts y).size = s.problem.cols := by
  rw [Scaled.reducedCosts, Vec.size_times, SparseMatrix.size_transposeProduct,
    s.problem.size_objective, hs.variableFactors, Problem.cols, Nat.min_self]

theorem costViolations?_eq (hy : y.size = s.problem.rows) :
    costViolations? s y = .ok (s.costViolations y) := by
  have hsize : (s.costViolations y).size = s.problem.cols := by
    rw [Scaled.costViolations, Array.size_zipWith, size_bounds hs, size_reducedCosts hs,
      Nat.min_self]
  rw [costViolations?, reducedCosts?_eq hy, Fault.ok_bind, bounds?_eq hs, Fault.ok_bind,
    ← hsize]
  refine build?_eq fun j hj => ?_
  rw [hsize] at hj
  rw [lookup?_eq (by rwa [size_bounds hs]), lookup?_eq (by rwa [size_reducedCosts hs])]
  simp only [Scaled.costViolations, Array.getElem_zipWith]
  rfl

theorem boundCost?_eq (hy : y.size = s.problem.rows) :
    boundCost? s y = .ok (s.boundCost y) := by
  have hsize : (Array.zip s.bounds (s.reducedCosts y)).size = s.problem.cols := by
    rw [Array.size_zip, size_bounds hs, size_reducedCosts hs, Nat.min_self]
  rw [boundCost?, reducedCosts?_eq hy, Fault.ok_bind, bounds?_eq hs, Fault.ok_bind, ← hsize]
  refine loop?_eq (fun sum j hj => ?_) _
  rw [hsize] at hj
  rw [lookup?_eq (by rwa [size_bounds hs]), lookup?_eq (by rwa [size_reducedCosts hs]),
    Array.getElem_zip]
  rfl

theorem signViolations?_eq (hy : y.size = s.problem.rows) :
    signViolations? s y = .ok (s.signViolations y) := by
  have hsize := size_unscaleDual hs hy
  have hsplit : checkSplit s.problem.equalities (s.unscaleDual y).size = .ok () :=
    if_pos (hsize ▸ s.problem.equalities_le)
  have hlength : Fault.checkLength (s.unscaleDual y).size s.problem.rows = .ok () := if_pos hsize
  rw [signViolations?, unscaleDual?_eq hs hy, Fault.ok_bind, hsplit, hlength]
  rfl

/-- An examination does not fail at an iterate and a displacement that fit. -/
theorem evaluate?_eq {z move : Iterate α} (hz : z.Fits s.problem.rows s.problem.cols)
    (hm : move.Fits s.problem.rows s.problem.cols) (iteration : ℕ) (passes elapsed : Float) :
    evaluate? s z move iteration passes elapsed =
      .ok (s.evaluate z move iteration passes elapsed) := by
  rw [evaluate?, rowViolations?_eq hs hz.primal, Fault.ok_bind, boundViolations?_eq hs hz.primal,
    Fault.ok_bind, costViolations?_eq hs hz.dual, Fault.ok_bind, boundCost?_eq hs hz.dual,
    Fault.ok_bind, signViolations?_eq hs hz.dual, Fault.ok_bind,
    inner?_eq (s.problem.size_objective.trans hz.primal.symm), Fault.ok_bind,
    inner?_eq (s.problem.size_rightSide.trans hz.dual.symm), Fault.ok_bind,
    unscalePrimal?_eq hs hm.primal, Fault.ok_bind, unscaleDual?_eq hs hm.dual]
  rfl

end

end Guarded

end HybridGradient
