import HybridGradient.Balance
import Mathlib.Tactic.Common

/-!
# What a line comes to

Products and the ranges of balancing go through the entries of a matrix once, and at each entry
change one component of a vector: that of the row, or of the column, in which the entry stands.
So what a component comes to is decided by the entries of its own line alone, in the order in
which they are stored.

* `getElem?_foldl_modify`: a component of a vector that is changed again and again;
* `SparseMatrix.accumulate_congr`, `MagnitudeRange.ofLines_congr`: entries that are the same in
  each line lead to the same products and ranges;
* `Factors.lineFactor`: the factor of a pass for a line.
-/

namespace HybridGradient

/-- Of many changes to a vector, a component undergoes those that are aimed at it, in their
    order. -/
theorem getElem?_foldl_modify {β γ : Type} (target : γ → ℕ) (change : γ → β → β) (es : List γ)
    (v : Array β) (i : ℕ) :
    (es.foldl (fun v e => v.modify (target e) (change e)) v)[i]? =
      v[i]?.map fun b => (es.filter (target · = i)).foldl (fun b e => change e b) b := by
  induction es generalizing v with
  | nil => simp
  | cons e es ih =>
    rw [List.foldl_cons, ih, Array.getElem?_modify, List.filter_cons]
    by_cases h : target e = i
    · simp [h, Function.comp_def]
    · simp [h]

variable {α : Type} [Scalar α]

/-- Entries that are the same in each target line, in the same order, add up to the same. -/
theorem SparseMatrix.accumulate_congr {target source : Entry α → ℕ} {es fs : List (Entry α)}
    (h : ∀ i, es.filter (target · = i) = fs.filter (target · = i)) (alpha : α) (x y : Vec α) :
    accumulate target source alpha x es y = accumulate target source alpha x fs y := by
  apply Array.ext_getElem?
  intro i
  simp only [accumulate, getElem?_foldl_modify, h]

/-! ### Ranges -/

namespace MagnitudeRange

/-- The positive magnitudes in a line. -/
def inLine (line : Entry α → ℕ) (magnitude : Entry α → α) (entries : List (Entry α)) (i : ℕ) :
    List α :=
  (entries.filter fun e => line e = i ∧ 0 < magnitude e).map magnitude

theorem mem_inLine {line : Entry α → ℕ} {magnitude : Entry α → α} {entries : List (Entry α)}
    {i : ℕ} {v : α} : v ∈ inLine line magnitude entries i ↔
      ∃ e ∈ entries, line e = i ∧ 0 < magnitude e ∧ magnitude e = v := by
  simp [inLine, and_assoc]

/-- The range of a line collects its magnitudes. -/
theorem getElem?_ofLines {line : Entry α → ℕ} {magnitude : Entry α → α} {count : ℕ}
    {entries : List (Entry α)} {i : ℕ} (hi : i < count) :
    (ofLines line magnitude count entries)[i]? =
      some ((inLine line magnitude entries i).foldl insert empty) := by
  have hfilter : (entries.filter fun e => 0 < magnitude e).foldl
      (fun ranges e => ranges.modify (line e) (·.insert (magnitude e)))
      (Array.replicate count empty) = _ := List.foldl_filter
  simp only [decide_eq_true_eq] at hfilter
  rw [ofLines, ← hfilter, getElem?_foldl_modify, Array.getElem?_replicate, if_pos hi, inLine,
    List.foldl_map, List.filter_filter]
  simp

/-- Entries that are the same in each line, in the same order, have the same ranges. -/
theorem ofLines_congr {line : Entry α → ℕ} {es fs : List (Entry α)}
    (h : ∀ i, es.filter (line · = i) = fs.filter (line · = i)) (magnitude : Entry α → α)
    (count : ℕ) : ofLines line magnitude count es = ofLines line magnitude count fs := by
  have hline (i : ℕ) (es : List (Entry α)) : inLine line magnitude es i =
      ((es.filter (line · = i)).filter fun e => 0 < magnitude e).map magnitude := by
    simp [inLine, List.filter_filter, Bool.and_comm]
  apply Array.ext_getElem?
  intro i
  by_cases hi : i < count
  · rw [getElem?_ofLines hi, getElem?_ofLines hi, hline, hline, h]
  · rw [Array.getElem?_eq_none (by simpa using hi), Array.getElem?_eq_none (by simpa using hi)]

end MagnitudeRange

/-! ### Factors -/

namespace Factors

variable {A : SparseMatrix α} {f : Factors α}

/-- The factor of a pass for a line. -/
def lineFactor (f : Factors α) (b : Balance) (least : α) (line : Entry α → ℕ)
    (A : SparseMatrix α) (i : ℕ) : α :=
  b.factor least ((MagnitudeRange.inLine line f.magnitude A.entries i).foldl
    MagnitudeRange.insert .empty)

/-- Factors multiplied by those of a pass. -/
theorem getD_times_lineFactor {x : Vec α} {b : Balance} {least : α} {line : Entry α → ℕ}
    {count i : ℕ} (hx : x.size = count) (hi : i < count) :
    (Vec.times x ((MagnitudeRange.ofLines line f.magnitude count A.entries).map
      (b.factor least))).getD i 1 = x.getD i 1 * f.lineFactor b least line A i := by
  have hsome : x[i]? = some (x.getD i 1) := by
    rw [Array.getD_eq_getD_getElem?, Array.getElem?_eq_getElem (hx ▸ hi), Option.getD_some]
  rw [Array.getD_eq_getD_getElem?, Vec.times, Array.getElem?_zipWith, Array.getElem?_map,
    MagnitudeRange.getElem?_ofLines hi, hsome]
  rfl

theorem getD_ones (n i : ℕ) : (Vec.ones n : Vec α).getD i 1 = 1 := by
  rw [Vec.ones, Array.getD_eq_getD_getElem?, Array.getElem?_replicate]
  split <;> rfl

end Factors

end HybridGradient
