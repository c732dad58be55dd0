import HybridGradient.Proofs.EntryOrder
import HybridGradient.Proofs.Extended
import HybridGradient.Proofs.Lines
import Mathlib.Data.Fintype.Perm
import Mathlib.GroupTheory.Perm.Support
import Mathlib.Logic.Equiv.Fin.Basic

/-!
# Other names for variables and constraints

The components of vectors and the lines of matrices are found by their numbers, and these are
mere names. If variables and constraints are renamed, everything computed for one of them alone
only moves to its new place. A sum moves as well, but it is formed in another order, so that
this takes arithmetic in which the order of a sum does not matter, as in exact arithmetic, also
with infinities and with what is no number.

* `Renames`: one vector is another one under other names;
* `Vec.sum_eq_of_perm`, `Renames.inner`, `Renames.norm`: in exact arithmetic, their sums are the
  same;
* `SparseMatrix.Renamed`: the same for both names of the entries of a matrix, and
  `SparseMatrix.Renamed.product`, `SparseMatrix.Renamed.balancing` and so on for what is computed
  with it.
-/

namespace HybridGradient

/-! ### Indices -/

variable {ρ σ τ υ : Equiv.Perm ℕ} {n : ℕ}

/-- New names for the indices below a number are below it. -/
def Keeps (σ : Equiv.Perm ℕ) (n : ℕ) : Prop := ∀ j < n, σ j < n

/-- There is no room below the number for the other indices. -/
theorem Keeps.lt_iff (h : Keeps σ n) {j : ℕ} : σ j < n ↔ j < n := by
  refine ⟨fun hj => ?_, h j⟩
  have hmaps : Set.MapsTo σ (Finset.range n) (Finset.range n) := fun i hi =>
    Finset.mem_coe.2 (Finset.mem_range.2 (h i (Finset.mem_range.1 hi)))
  obtain ⟨i, hi, hij⟩ := Finset.surjOn_of_injOn_of_card_le σ hmaps σ.injective.injOn le_rfl
    (Finset.mem_coe.2 (Finset.mem_range.2 hj))
  rw [← σ.injective hij]
  exact Finset.mem_range.1 hi

/-- A permutation of the indices below a number, which leaves all others as they are. -/
def onIndices (σ : Equiv.Perm (Fin n)) : Equiv.Perm ℕ := σ.extendDomain Fin.equivSubtype

@[simp] theorem onIndices_apply (σ : Equiv.Perm (Fin n)) (j : Fin n) : onIndices σ j = σ j :=
  σ.extendDomain_apply_image Fin.equivSubtype j

theorem keeps_onIndices (σ : Equiv.Perm (Fin n)) : Keeps (onIndices σ) n :=
  fun j hj => onIndices_apply σ ⟨j, hj⟩ ▸ (σ ⟨j, hj⟩).2

/-- A part of the indices that are permuted is kept, if it is mapped to itself. -/
theorem keeps_onIndices_of_le {k : ℕ} (hk : k ≤ n) {σ : Equiv.Perm (Fin n)}
    (h : ∀ j : Fin n, (j : ℕ) < k → (σ j : ℕ) < k) : Keeps (onIndices σ) k :=
  fun j hj => onIndices_apply σ ⟨j, hj.trans_le hk⟩ ▸ h ⟨j, hj.trans_le hk⟩ hj

theorem Keeps.map_range'_perm {k : ℕ} (hk : Keeps σ k) (hn : Keeps σ n) :
    ((List.range' k (n - k)).map σ).Perm (List.range' k (n - k)) := by
  refine (List.perm_ext_iff_of_nodup (.map σ.injective List.nodup_range') List.nodup_range').2 ?_
  intro i
  simp only [List.mem_map, List.mem_range'_1]
  constructor
  · rintro ⟨j, hj, rfl⟩
    have := hk.lt_iff (j := j)
    have := hn.lt_iff (j := j)
    omega
  · intro hi
    have := hk.lt_iff (j := σ.symm i)
    have := hn.lt_iff (j := σ.symm i)
    rw [σ.apply_symm_apply] at *
    exact ⟨σ.symm i, by omega, σ.apply_symm_apply i⟩

/-! ### Vectors -/

section Vectors

variable {β γ δ : Type} {x x' : Array β} {y y' : Array γ}

/-- A vector has the components of another one under new names. -/
def Renames (σ : Equiv.Perm ℕ) (x x' : Array β) : Prop := ∀ j, x'[σ j]? = x[j]?

namespace Renames

theorem lt_size_iff (h : Renames σ x x') {j : ℕ} : σ j < x'.size ↔ j < x.size := by
  rw [← not_le, ← Array.getElem?_eq_none_iff, h, Array.getElem?_eq_none_iff, not_le]

theorem size (h : Renames σ x x') : x'.size = x.size := by
  have himage : (Finset.range x.size).map σ.toEmbedding = Finset.range x'.size := by
    ext i
    rw [Finset.mem_map_equiv, Finset.mem_range, Finset.mem_range, ← h.lt_size_iff,
      σ.apply_symm_apply]
  rw [← Finset.card_range x'.size, ← himage, Finset.card_map, Finset.card_range]

theorem keeps (h : Renames σ x x') : Keeps σ x.size :=
  fun _ hj => h.size ▸ h.lt_size_iff.2 hj

theorem map (h : Renames σ x x') (f : β → γ) : Renames σ (x.map f) (x'.map f) := by
  intro j
  rw [Array.getElem?_map, Array.getElem?_map, h]

theorem mapIdx (h : Renames σ x x') {f : ℕ → β → γ} (hf : ∀ j, f (σ j) = f j) :
    Renames σ (x.mapIdx f) (x'.mapIdx f) := by
  intro j
  rw [Array.getElem?_mapIdx, Array.getElem?_mapIdx, h, hf]

theorem zipWith (hx : Renames σ x x') (f : β → γ → δ) (hy : Renames σ y y') :
    Renames σ (Array.zipWith f x y) (Array.zipWith f x' y') := by
  intro j
  rw [Array.getElem?_zipWith, Array.getElem?_zipWith, hx, hy]

theorem replicate (h : Keeps σ n) (b : β) :
    Renames σ (Array.replicate n b) (Array.replicate n b) := by
  intro j
  simp only [Array.getElem?_replicate, h.lt_iff]

theorem getD (h : Renames σ x x') (j : ℕ) (b : β) : x'.getD (σ j) b = x.getD j b := by
  rw [Array.getD_eq_getD_getElem?, Array.getD_eq_getD_getElem?, h]

/-- What is left of a vector behind a place that no name crosses. -/
theorem drop_perm (h : Renames σ x x') {k : ℕ} (hk : Keeps σ k) :
    (x'.toList.drop k).Perm (x.toList.drop k) := by
  have hdrop (z : Array β) :
      (z.toList.drop k).map some = (List.range' k (z.size - k)).map (z[·]?) := by
    apply List.ext_getElem?
    intro i
    by_cases hi : i < z.size - k
    · simp [hi, Nat.add_lt_of_lt_sub' hi]
    · simp [hi]
  have hcomp : (x[·]?) = (x'[·]?) ∘ σ := funext fun j => (h j).symm
  rw [← List.map_perm_map_iff (Option.some_injective β), hdrop, hdrop, h.size, hcomp,
    ← List.map_map]
  exact ((hk.map_range'_perm h.keeps).map _).symm

theorem perm (h : Renames σ x x') : x'.toList.Perm x.toList :=
  h.drop_perm (k := 0) fun _ hj => absurd hj (Nat.not_lt_zero _)

end Renames

/-- Every vector has other names. -/
theorem exists_renames (hx : Keeps σ x.size) : ∃ x', Renames σ x x' := by
  have hsymm (j : Fin x.size) : σ.symm j < x.size :=
    hx.lt_iff.1 ((σ.apply_symm_apply j).symm ▸ j.2)
  refine ⟨Array.ofFn fun j => x[(⟨σ.symm j, hsymm j⟩ : Fin x.size)], fun j => ?_⟩
  simp [hx.lt_iff, getElem?_def]

/-- What is said of a vector that need not be given. -/
theorem exists_rel_renames (hσ : Keeps σ n) {v : Option (Array β)} (hv : ∀ x ∈ v, x.size = n) :
    ∃ w, Option.Rel (Renames σ) v w := by
  cases v with
  | none => exact ⟨none, .none⟩
  | some x =>
    obtain ⟨x', hx'⟩ := exists_renames (x := x) (hv x rfl ▸ hσ)
    exact ⟨some x', .some hx'⟩

theorem size_of_rel_renames {v w : Option (Array β)} (hvw : Option.Rel (Renames σ) v w)
    (hv : ∀ x ∈ v, x.size = n) : ∀ x ∈ w, x.size = n := by
  intro x hx
  cases hvw with
  | none => exact nomatch hx
  | some h => exact Option.some.inj hx ▸ h.size.trans (hv _ rfl)

end Vectors

/-! ### Sums in exact arithmetic -/

namespace Extended

protected theorem add_assoc (a b c : Extended) : a + b + c = a + (b + c) := by
  cases a <;> cases b <;> cases c
  case real.real.real => exact congrArg real (add_assoc _ _ _)
  all_goals rfl

protected theorem add_comm (a b : Extended) : a + b = b + a := by
  cases a <;> cases b
  case real.real => exact congrArg real (add_comm _ _)
  all_goals rfl

protected theorem add_zero (a : Extended) : a + 0 = a := by
  cases a
  case real => exact congrArg real (add_zero _)
  all_goals rfl

protected theorem add_right_comm (a b c : Extended) : a + b + c = a + c + b := by
  rw [Extended.add_assoc, Extended.add_comm b, ← Extended.add_assoc]

open Classical in
theorem beq_self_eq_false {a : Extended} : (a == a) = false ↔ a = undefined := by
  change decide (a = a ∧ a ≠ undefined) = false ↔ a = undefined
  simp

/-- The lesser of two values, by cases. -/
def least : Extended → Extended → Extended
  | real x, real y => real (min x y)
  | a, undefined => a
  | undefined, b => b
  | top, b => b
  | a, top => a
  | bot, _ => bot
  | _, bot => bot

theorem lesser_eq_least (a b : Extended) : Scalar.lesser a b = least a b := by
  have hlt {a b : Extended} (h : a < b) : Scalar.lesser a b = a := if_pos (.inl h)
  have hnot {a b : Extended} (hb : b ≠ undefined) (h : ¬ a < b) : Scalar.lesser a b = b :=
    if_neg (by simp [h, beq_self_eq_false, hb])
  cases a <;> cases b
  case real.real x y =>
    rcases lt_or_ge x y with h | h
    · rw [hlt (real_lt_real.2 h), least, min_eq_left h.le]
    · rw [hnot (b := real y) nofun (mt real_lt_real.1 h.not_gt), least, min_eq_right h]
  all_goals first
    | exact if_pos (.inr (beq_self_eq_false.2 rfl))
    | exact hlt trivial
    | exact hnot nofun id

theorem lesser_right_comm (a b c : Extended) :
    Scalar.lesser (Scalar.lesser a b) c = Scalar.lesser (Scalar.lesser a c) b := by
  simp only [lesser_eq_least]
  cases a <;> cases b <;> cases c
  case real.real.real => exact congrArg real (min_right_comm _ _ _)
  all_goals first
    | rfl
    | exact congrArg real (min_comm _ _)

protected theorem neg_neg (a : Extended) : - -a = a := by
  cases a
  case real => exact congrArg real (neg_neg _)
  all_goals rfl

theorem neg_lt_neg {a b : Extended} : -a < -b ↔ b < a := by
  cases a <;> cases b
  case real.real => exact neg_lt_neg_iff (α := ℝ)
  all_goals exact Iff.rfl

/-- The greater one is the lesser one on the other side of zero. -/
theorem greater_eq (a b : Extended) : Scalar.greater a b = -Scalar.lesser (-a) (-b) := by
  have hneg : (-b == -b) = false ↔ (b == b) = false := by
    rw [beq_self_eq_false, beq_self_eq_false]
    cases b with
    | undefined => exact Iff.rfl
    | real | top | bot => exact ⟨nofun, nofun⟩
  simp only [Scalar.greater, Scalar.lesser, neg_lt_neg, hneg]
  split <;> exact (Extended.neg_neg _).symm

theorem greater_right_comm (a b c : Extended) :
    Scalar.greater (Scalar.greater a b) c = Scalar.greater (Scalar.greater a c) b := by
  simp only [greater_eq, Extended.neg_neg, lesser_right_comm (-a) (-b)]

end Extended

theorem MagnitudeRange.insert_right_comm (r : MagnitudeRange Extended) (v w : Extended) :
    (r.insert v).insert w = (r.insert w).insert v := by
  simp only [insert, Extended.lesser_right_comm r.least v, Extended.greater_right_comm _ v]

/-- The sum of components in any order. -/
theorem Vec.sum_eq_of_perm {x x' : Vec Extended} (h : x'.toList.Perm x.toList) :
    sum x' = sum x := by
  rw [sum, sum, ← Array.foldl_toList, ← Array.foldl_toList]
  exact h.foldl_eq' (fun a _ b _ c => Extended.add_right_comm c a b) 0

theorem Vec.norm_eq_of_perm {x x' : Vec Extended} (h : x'.toList.Perm x.toList) :
    norm x' = norm x := by
  rw [norm, norm, inner, inner, Array.zipWith_self, Array.zipWith_self]
  congr 1
  apply sum_eq_of_perm
  rw [Array.toList_map, Array.toList_map]
  exact h.map _

namespace Renames

variable {x x' y y' : Vec Extended}

theorem inner (hx : Renames σ x x') (hy : Renames σ y y') : Vec.inner x' y' = Vec.inner x y :=
  Vec.sum_eq_of_perm (hx.zipWith _ hy).perm

theorem norm (h : Renames σ x x') : Vec.norm x' = Vec.norm x := Vec.norm_eq_of_perm h.perm

end Renames

/-! ### Matrices -/

variable {α : Type}

/-- An entry with other names for its row and its column. -/
def Entry.rename (ρ σ : Equiv.Perm ℕ) (e : Entry α) : Entry α := ⟨ρ e.row, σ e.col, e.value⟩

@[simp] theorem Entry.row_rename (e : Entry α) : (e.rename ρ σ).row = ρ e.row := rfl

@[simp] theorem Entry.col_rename (e : Entry α) : (e.rename ρ σ).col = σ e.col := rfl

@[simp] theorem Entry.value_rename (e : Entry α) : (e.rename ρ σ).value = e.value := rfl

/-- A matrix has the entries of another one, with other names for rows and columns, in any order
    and in either storage. -/
structure SparseMatrix.Renamed (ρ σ : Equiv.Perm ℕ) (A B : SparseMatrix α) : Prop where
  rows : B.rows = A.rows
  cols : B.cols = A.cols
  keepsRows : Keeps ρ A.rows
  keepsCols : Keeps σ A.cols
  entries : B.entries.Perm (A.entries.map (Entry.rename ρ σ))

/-! ### Renamed triplets -/

theorem Entry.moves_rename : Moves (rename ρ σ : Entry α → Entry α) where
  samePosition _ _ := and_congr ρ.injective.eq_iff σ.injective.eq_iff
  value _ := rfl
  withValue _ _ := rfl

theorem Entry.inBounds_rename {rows cols : ℕ} {es : List (Entry α)} (hρ : Keeps ρ rows)
    (hσ : Keeps σ cols) (h : ∀ e ∈ es, e.row < rows ∧ e.col < cols) :
    ∀ e ∈ es.map (rename ρ σ), e.row < rows ∧ e.col < cols := by
  intro e he
  obtain ⟨f, hf, rfl⟩ := List.mem_map.1 he
  exact ⟨hρ _ (h f hf).1, hσ _ (h f hf).2⟩

/-- Renamed triplets make a renamed matrix. -/
theorem SparseMatrix.ofTriplets?_rename [Add α] {rows cols : ℕ} {triplets : List (Entry α)}
    {A : SparseMatrix α} (hA : ofTriplets? rows cols triplets = .ok A) (hρ : Keeps ρ rows)
    (hσ : Keeps σ cols) :
    ∃ B, ofTriplets? rows cols (triplets.map (Entry.rename ρ σ)) = .ok B ∧ A.Renamed ρ σ B := by
  obtain ⟨hbounds, hlines, rfl⟩ := eq_of_ofTriplets? hA
  exact ⟨_, ofTriplets?_eq (Entry.inBounds_rename hρ hσ hbounds) hlines, rfl, rfl, hρ, hσ,
    Entry.moves_rename.collect_perm _ _ _⟩

/-- Every matrix has a version with other names. -/
theorem SparseMatrix.exists_renamed [Add α] (A : SparseMatrix α) (hρ : Keeps ρ A.rows)
    (hσ : Keeps σ A.cols) : ∃ B, A.Renamed ρ σ B := by
  exact ⟨ofEntries A.rows A.cols .byColumn _ (Entry.inBounds_rename hρ hσ A.inBounds), rfl, rfl,
    hρ, hσ, (Entry.moves_rename.collect_perm _ _ _).trans ((A.reorder_perm .byColumn).map _)⟩

section

variable {es fs : List (Entry α)}

/-- What stands in a line of renamed entries. -/
theorem Entry.filter_rename {line : Entry α → ℕ} (hline : ∀ e, line (e.rename ρ σ) = τ (line e))
    (h : fs.Perm (es.map (rename ρ σ))) (i : ℕ) :
    (fs.filter (line · = τ i)).Perm ((es.filter (line · = i)).map (rename ρ σ)) := by
  refine (h.filter _).trans ?_
  simp only [List.filter_map, Function.comp_def, hline, τ.injective.eq_iff]
  exact .refl _

theorem MagnitudeRange.inLine_rename [Scalar α] {line : Entry α → ℕ}
    {magnitude magnitude' : Entry α → α} (hline : ∀ e, line (e.rename ρ σ) = τ (line e))
    (hmagnitude : ∀ e, magnitude' (e.rename ρ σ) = magnitude e)
    (h : fs.Perm (es.map (Entry.rename ρ σ))) (i : ℕ) :
    (inLine line magnitude' fs (τ i)).Perm (inLine line magnitude es i) := by
  refine ((h.filter _).map magnitude').trans ?_
  simp only [List.filter_map, List.map_map, Function.comp_def, hline, hmagnitude,
    τ.injective.eq_iff]
  exact .refl _

end

section

variable {es fs : List (Entry Extended)}

theorem SparseMatrix.accumulate_rename {target source : Entry Extended → ℕ}
    (htarget : ∀ e, target (e.rename ρ σ) = τ (target e))
    (hsource : ∀ e, source (e.rename ρ σ) = υ (source e))
    (h : fs.Perm (es.map (Entry.rename ρ σ))) (alpha : Extended)
    {x x' y y' : Vec Extended} (hx : Renames υ x x') (hy : Renames τ y y') :
    Renames τ (accumulate target source alpha x es y)
      (accumulate target source alpha x' fs y') := by
  intro i
  rw [accumulate, accumulate, getElem?_foldl_modify, getElem?_foldl_modify, hy]
  congr 1
  funext b
  rw [(Entry.filter_rename htarget h i).foldl_eq' fun _ _ _ _ _ =>
    Extended.add_right_comm _ _ _, List.foldl_map]
  simp only [hsource, hx.getD, Entry.value_rename]

theorem MagnitudeRange.ofLines_rename {line : Entry Extended → ℕ}
    {magnitude magnitude' : Entry Extended → Extended} {count : ℕ} (hτ : Keeps τ count)
    (hline : ∀ e, line (e.rename ρ σ) = τ (line e))
    (hmagnitude : ∀ e, magnitude' (e.rename ρ σ) = magnitude e)
    (h : fs.Perm (es.map (Entry.rename ρ σ))) :
    Renames τ (ofLines line magnitude count es) (ofLines line magnitude' count fs) := by
  intro i
  by_cases hi : i < count
  · rw [getElem?_ofLines hi, getElem?_ofLines (hτ i hi),
      (inLine_rename hline hmagnitude h i).foldl_eq' fun v _ w _ r => r.insert_right_comm v w]
  · rw [Array.getElem?_eq_none (by simpa using mt hτ.lt_iff.1 hi),
      Array.getElem?_eq_none (by simpa using hi)]

end

theorem Renames.preset [Scalar α] {y y' : Vec α} (h : Renames σ y y') (beta : α) :
    Renames σ (SparseMatrix.preset beta y) (SparseMatrix.preset beta y') := by
  rw [SparseMatrix.preset, SparseMatrix.preset, h.size]
  split
  · exact .replicate h.keeps 0
  · exact h.map _

namespace SparseMatrix.Renamed

section

variable {A B : SparseMatrix α}

theorem reorder [Add α] (h : A.Renamed ρ σ B) (s t : Storage) :
    (A.reorder s).Renamed ρ σ (B.reorder t) where
  rows := h.rows
  cols := h.cols
  keepsRows := h.keepsRows
  keepsCols := h.keepsCols
  entries := (B.reorder_perm t).trans (h.entries.trans ((A.reorder_perm s).symm.map _))

theorem mapValues (h : A.Renamed ρ σ B) {f g : Entry α → α}
    (hfg : ∀ e, g (e.rename ρ σ) = f e) : (A.mapValues f).Renamed ρ σ (B.mapValues g) where
  rows := h.rows
  cols := h.cols
  keepsRows := h.keepsRows
  keepsCols := h.keepsCols
  entries := by
    refine (h.entries.map _).trans ?_
    simp only [SparseMatrix.mapValues, List.map_map, Function.comp_def, hfg]
    exact .refl _

end

variable {A B : SparseMatrix Extended} {x x' y y' : Vec Extended}

theorem product (h : A.Renamed ρ σ B) (hx : Renames σ x x') (hy : Renames ρ y y')
    (alpha beta : Extended) : Renames ρ (A.product alpha x beta y) (B.product alpha x' beta y') :=
  accumulate_rename Entry.row_rename Entry.col_rename h.entries alpha hx (hy.preset beta)

theorem transposeProduct (h : A.Renamed ρ σ B) (hx : Renames ρ x x') (hy : Renames σ y y')
    (alpha beta : Extended) :
    Renames σ (A.transposeProduct alpha x beta y) (B.transposeProduct alpha x' beta y') :=
  accumulate_rename Entry.col_rename Entry.row_rename h.entries alpha hx (hy.preset beta)

end SparseMatrix.Renamed

/-! ### Balancing -/

/-- Factors of the same lines, under other names. -/
structure Factors.Renamed (ρ σ : Equiv.Perm ℕ) (f g : Factors α) : Prop where
  rows : Renames ρ f.rows g.rows
  cols : Renames σ f.cols g.cols

namespace Factors.Renamed

theorem scaledValue [Scalar α] {f g : Factors α} (h : f.Renamed ρ σ g) (e : Entry α) :
    g.scaledValue (e.rename ρ σ) = f.scaledValue e := by
  simp only [Factors.scaledValue, Entry.row_rename, Entry.col_rename, Entry.value_rename,
    h.rows.getD, h.cols.getD]

variable {A B : SparseMatrix Extended} {f g : Factors Extended}

theorem magnitude (h : f.Renamed ρ σ g) (e : Entry Extended) :
    g.magnitude (e.rename ρ σ) = f.magnitude e := congrArg Scalar.abs (h.scaledValue e)

theorem balanceRows (h : f.Renamed ρ σ g) (hA : A.Renamed ρ σ B) (b : Balance)
    (least : Extended) : Renames ρ (f.balanceRows b least A) (g.balanceRows b least B) := by
  have hranges := MagnitudeRange.ofLines_rename hA.keepsRows Entry.row_rename h.magnitude
    hA.entries
  rw [Factors.balanceRows, Factors.balanceRows, hA.rows]
  exact h.rows.zipWith _ (hranges.map _)

theorem balanceCols (h : f.Renamed ρ σ g) (hA : A.Renamed ρ σ B) (b : Balance)
    (least : Extended) : Renames σ (f.balanceCols b least A) (g.balanceCols b least B) := by
  have hranges := MagnitudeRange.ofLines_rename hA.keepsCols Entry.col_rename h.magnitude
    hA.entries
  rw [Factors.balanceCols, Factors.balanceCols, hA.cols]
  exact h.cols.zipWith _ (hranges.map _)

theorem pass (h : f.Renamed ρ σ g) (hA : A.Renamed ρ σ B) (b : Balance) (least : Extended) :
    (Factors.pass b least A f).Renamed ρ σ (Factors.pass b least B g) := by
  cases b with
  | geometricMean =>
    have hrows : Renamed ρ σ ⟨_, f.cols⟩ ⟨_, g.cols⟩ :=
      ⟨h.balanceRows hA .geometricMean least, h.cols⟩
    exact ⟨hrows.rows, hrows.balanceCols hA _ _⟩
  | largest => exact ⟨h.balanceRows hA _ _, h.balanceCols hA _ _⟩

theorem passes (h : f.Renamed ρ σ g) (hA : A.Renamed ρ σ B) (b : Balance) (least : Extended)
    (count : ℕ) : (Factors.passes b least A count f).Renamed ρ σ (.passes b least B count g) := by
  induction count with
  | zero => exact h
  | succ count ih => exact ih.pass hA b least

end Factors.Renamed

theorem SparseMatrix.Renamed.balancing {A B : SparseMatrix Extended} (h : A.Renamed ρ σ B)
    (means largests : ℕ) (least : Extended) :
    (Factors.balancing A means largests least).Renamed ρ σ (.balancing B means largests least) := by
  have hunit : (Factors.unit A).Renamed ρ σ (.unit B) := by
    rw [Factors.unit, Factors.unit, h.rows, h.cols]
    exact ⟨.replicate h.keepsRows 1, .replicate h.keepsCols 1⟩
  exact (hunit.passes h _ _ _).passes h _ _ _

end HybridGradient
