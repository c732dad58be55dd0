import HybridGradient.SparseMatrix.Basic
import Mathlib.Data.List.Induction

/-!
# Entries at different positions

Collecting entries adds up the values at one position. Of entries at different positions nothing
is added up: they are brought into order, and no more. So it does not matter whether the values
are changed before that or afterwards.

* `Storage.collect_perm`, `SparseMatrix.reorder_perm`: none of them is lost;
* `Storage.collect_map`, `SparseMatrix.ofEntries_map`: other values at the same positions;
* `Entry.Moves.collect_perm`: the same values at other positions, which may also be stored in the
  other order;
* `SparseMatrix.ofTriplets?_eq`: triplets from which a matrix can be made.
-/

namespace HybridGradient

namespace Storage

variable {α : Type} {s : Storage} {e f : Entry α} {es fs : List (Entry α)}

theorem Before.not_samePosition (h : s.Before e f) : ¬ f.SamePosition e := by
  rw [samePosition_iff s]
  rw [Before] at h
  omega

variable [Add α]

/-- An entry at a position that is free is one more entry. -/
theorem insert_perm (h : ∀ f ∈ es, ¬ e.SamePosition f) : (s.insert e es).Perm (e :: es) := by
  induction es with
  | nil => exact .refl _
  | cons f fs ih =>
    rw [insert, if_neg (h f List.mem_cons_self)]
    split
    · exact .refl _
    · exact ((ih fun g hg => h g (List.mem_cons_of_mem _ hg)).cons f).trans (.swap e f fs)

/-- Other values at the same positions do not change the place of an entry. -/
theorem insert_map {φ : Entry α → Entry α} (hφ : ∀ e, (φ e).SamePosition e)
    (h : ∀ f ∈ es, ¬ e.SamePosition f) :
    s.insert (φ e) (es.map φ) = (s.insert e es).map φ := by
  induction es with
  | nil => rfl
  | cons f fs ih =>
    have hne := h f List.mem_cons_self
    have hne' : ¬ (φ e).SamePosition (φ f) := fun hsame =>
      hne ⟨(hφ e).1.symm.trans (hsame.1.trans (hφ f).1),
        (hφ e).2.symm.trans (hsame.2.trans (hφ f).2)⟩
    rw [List.map_cons, insert, insert, if_neg hne, if_neg hne']
    by_cases hbefore : s.Before e f
    · rw [if_pos hbefore, if_pos ((before_congr (hφ e) (hφ f)).2 hbefore)]
      rfl
    · rw [if_neg hbefore, if_neg (mt (before_congr (hφ e) (hφ f)).1 hbefore),
        ih fun g hg => h g (List.mem_cons_of_mem _ hg)]
      rfl

/-- Entries that are inserted one after the other, at positions that are free. -/
theorem foldl_insert (hes : es.Pairwise fun e f => ¬ f.SamePosition e)
    (hfs : ∀ e ∈ es, ∀ f ∈ fs, ¬ e.SamePosition f) :
    (es.foldl (fun fs e => s.insert e fs) fs).Perm (es ++ fs) ∧
      ∀ φ : Entry α → Entry α, (∀ e, (φ e).SamePosition e) →
        (es.map φ).foldl (fun fs e => s.insert e fs) (fs.map φ) =
          (es.foldl (fun fs e => s.insert e fs) fs).map φ := by
  induction es generalizing fs with
  | nil => exact ⟨.refl _, fun _ _ => rfl⟩
  | cons e rest ih =>
    obtain ⟨he, hrest⟩ := List.pairwise_cons.1 hes
    have hfree := hfs e List.mem_cons_self
    have hinsert : (s.insert e fs).Perm (e :: fs) := insert_perm hfree
    have hfrees : ∀ g ∈ rest, ∀ f ∈ s.insert e fs, ¬ g.SamePosition f := by
      intro g hg f hf
      rcases List.mem_cons.1 (hinsert.mem_iff.1 hf) with rfl | hf
      · exact he g hg
      · exact hfs g (List.mem_cons_of_mem _ hg) f hf
    obtain ⟨hperm, hmap⟩ := ih hrest hfrees
    refine ⟨hperm.trans ((hinsert.append_left rest).trans List.perm_middle), fun φ hφ => ?_⟩
    rw [List.map_cons, List.foldl_cons, List.foldl_cons, insert_map hφ hfree, hmap φ hφ]

/-- Entries at different positions are only brought into order. -/
theorem collect_perm (h : es.Pairwise fun e f => ¬ f.SamePosition e) :
    (s.collect es).Perm es := by
  have hfree : ∀ e ∈ es, ∀ f ∈ ([] : List (Entry α)), ¬ e.SamePosition f := nofun
  have hperm := (foldl_insert (s := s) h hfree).1
  rwa [List.append_nil] at hperm

/-- The order of entries at different positions does not depend on their values. -/
theorem collect_map (h : es.Pairwise fun e f => ¬ f.SamePosition e) {φ : Entry α → Entry α}
    (hφ : ∀ e, (φ e).SamePosition e) : s.collect (es.map φ) = (s.collect es).map φ := by
  have hfree : ∀ e ∈ es, ∀ f ∈ ([] : List (Entry α)), ¬ e.SamePosition f := nofun
  exact (foldl_insert (s := s) h hfree).2 φ hφ

/-- An entry at a position that is taken only adds its value to the entry there. -/
theorem insert_eq_map (hes : es.Pairwise s.Before) (h : ∃ f ∈ es, e.SamePosition f) :
    s.insert e es =
      es.map fun f => if e.SamePosition f then f.withValue (f.value + e.value) else f := by
  induction es with
  | nil => exact absurd h (by simp)
  | cons f fs ih =>
    obtain ⟨hf, hfs⟩ := List.pairwise_cons.1 hes
    rw [insert, List.map_cons]
    by_cases hsame : e.SamePosition f
    · have hothers : fs.map (fun g => if e.SamePosition g then g.withValue (g.value + e.value)
          else g) = fs := by
        refine (List.map_congr_left fun g hg => if_neg fun hg' => ?_).trans (List.map_id fs)
        exact (hf g hg).not_samePosition
          ⟨hg'.1.symm.trans hsame.1, hg'.2.symm.trans hsame.2⟩
      rw [if_pos hsame, if_pos hsame, hothers]
    · obtain ⟨g, hg, hsame'⟩ := h
      have hg : g ∈ fs := (List.mem_cons.1 hg).resolve_left fun heq => hsame (heq ▸ hsame')
      have hbefore : ¬ s.Before e f := by
        have hfg := hf g hg
        rw [samePosition_iff s] at hsame'
        rw [Before] at hfg ⊢
        omega
      rw [if_neg hsame, if_neg hsame, if_neg hbefore, ih hfs ⟨g, hg, hsame'⟩]

end Storage

/-! ### Other positions -/

namespace Entry

variable {α : Type}

/-- A map of entries keeps their values, and keeps different positions apart. -/
structure Moves (φ : Entry α → Entry α) : Prop where
  samePosition (e f : Entry α) : (φ e).SamePosition (φ f) ↔ e.SamePosition f
  value (e : Entry α) : (φ e).value = e.value
  withValue (e : Entry α) (v : α) : φ (e.withValue v) = (φ e).withValue v

namespace Moves

variable [Add α] {φ : Entry α → Entry α} {s t : Storage} {es fs : List (Entry α)}

/-- Entries at other positions are inserted in other places, but meet the same entries. -/
theorem insert_perm (hφ : Moves φ) (hes : es.Pairwise s.Before) (hfs : fs.Pairwise t.Before)
    (h : fs.Perm (es.map φ)) (e : Entry α) :
    (t.insert (φ e) fs).Perm ((s.insert e es).map φ) := by
  by_cases hsame : ∃ f ∈ es, e.SamePosition f
  · obtain ⟨f, hf, hef⟩ := hsame
    have hf' : φ f ∈ fs := h.mem_iff.2 (List.mem_map_of_mem hf)
    rw [Storage.insert_eq_map hes ⟨f, hf, hef⟩,
      Storage.insert_eq_map hfs ⟨_, hf', (hφ.samePosition e f).2 hef⟩, List.map_map]
    refine (h.map _).trans ?_
    rw [List.map_map]
    refine .of_eq (List.map_congr_left fun g _ => ?_)
    simp only [Function.comp_apply, hφ.samePosition, hφ.value]
    split
    · exact (hφ.withValue _ _).symm
    · rfl
  · have hfree : ∀ f ∈ es, ¬ e.SamePosition f := fun f hf hef => hsame ⟨f, hf, hef⟩
    have hfree' : ∀ f ∈ fs, ¬ (φ e).SamePosition f := by
      intro f hf hef
      obtain ⟨g, hg, rfl⟩ := List.mem_map.1 (h.mem_iff.1 hf)
      exact hfree g hg ((hφ.samePosition e g).1 hef)
    exact (Storage.insert_perm hfree').trans
      ((h.cons _).trans ((Storage.insert_perm hfree).symm.map _))

/-- Entries that are moved before they are collected, in whatever order, are the entries that are
    moved afterwards. -/
theorem collect_perm (hφ : Moves φ) (s t : Storage) (es : List (Entry α)) :
    (t.collect (es.map φ)).Perm ((s.collect es).map φ) := by
  induction es using List.reverseRecOn with
  | nil => exact .refl _
  | append_singleton es e ih =>
    rw [List.map_append, Storage.collect, Storage.collect, List.foldl_append, List.foldl_append]
    exact hφ.insert_perm (s.pairwise_before_collect es) (t.pairwise_before_collect _) ih e

end Moves

end Entry

namespace SparseMatrix

variable {α : Type}

/-- Two matrices are equal if they have the same shape and the same entries in one order. -/
theorem eq_of_entries_eq {A B : SparseMatrix α} (hrows : A.rows = B.rows) (hcols : A.cols = B.cols)
    (hstorage : A.storage = B.storage) (hentries : A.entries = B.entries) : A = B := by
  cases A
  cases B
  dsimp only at hrows hcols hstorage hentries
  subst hrows hcols hstorage hentries
  rfl

/-- The entries of a matrix are at different positions. -/
theorem pairwise_not_samePosition (A : SparseMatrix α) :
    A.entries.Pairwise fun e f => ¬ f.SamePosition e :=
  A.ordered.imp Storage.Before.not_samePosition

variable [Add α]

/-- The entries of a matrix are the same in the other order. -/
theorem reorder_perm (A : SparseMatrix α) (s : Storage) : (A.reorder s).entries.Perm A.entries :=
  Storage.collect_perm A.pairwise_not_samePosition

/-- A matrix that is put together from entries of another one with other values is that matrix
    in another order, with these values. -/
theorem ofEntries_map (A : SparseMatrix α) (s : Storage) (f : Entry α → α)
    (h : ∀ e ∈ A.entries.map (fun e => e.withValue (f e)), e.row < A.rows ∧ e.col < A.cols) :
    ofEntries A.rows A.cols s (A.entries.map fun e => e.withValue (f e)) h =
      (A.reorder s).mapValues f :=
  eq_of_entries_eq rfl rfl rfl
    (Storage.collect_map A.pairwise_not_samePosition fun e => e.samePosition_withValue (f e))

/-- Triplets within a shape make a matrix, if the lines of the shape can be addressed. -/
theorem ofTriplets?_eq {rows cols : Nat} {triplets : List (Entry α)}
    (h : ∀ e ∈ triplets, e.row < rows ∧ e.col < cols)
    (hlines : checkLines .byColumn rows cols = .ok ()) :
    ofTriplets? rows cols triplets = .ok (ofEntries rows cols .byColumn triplets h) := by
  rw [ofTriplets?]
  split
  · rename_i e he
    have hfound := List.find?_some he
    rw [decide_eq_true (h e (List.mem_of_find?_eq_some he))] at hfound
    exact nomatch hfound
  · rw [hlines]
    rfl

/-- A matrix that is made from triplets collects them, all of which are within its shape. -/
theorem eq_of_ofTriplets? {rows cols : Nat} {triplets : List (Entry α)} {A : SparseMatrix α}
    (h : ofTriplets? rows cols triplets = .ok A) :
    ∃ hbounds : ∀ e ∈ triplets, e.row < rows ∧ e.col < cols,
      checkLines .byColumn rows cols = .ok () ∧
        A = ofEntries rows cols .byColumn triplets hbounds := by
  rw [ofTriplets?] at h
  split at h
  · exact nomatch h
  · rename_i hfind
    cases hlines : checkLines .byColumn rows cols with
    | error fault =>
      rw [hlines] at h
      exact nomatch h
    | ok _ =>
      rw [hlines] at h
      exact ⟨fun e he => by simpa using List.find?_eq_none.1 hfind e he, rfl,
        (Except.ok.inj h).symm⟩

/-- The lines of a matrix that is made from triplets can be addressed. -/
theorem checkLines_of_ofTriplets? {rows cols : Nat} {triplets : List (Entry α)}
    {A : SparseMatrix α} (h : ofTriplets? rows cols triplets = .ok A) :
    checkLines .byColumn A.rows A.cols = .ok () := by
  obtain ⟨-, hlines, rfl⟩ := eq_of_ofTriplets? h
  exact hlines

/-- A matrix whose entries are put into another order is that matrix reordered. -/
theorem eq_of_reorder? {A B : SparseMatrix α} {s : Storage} (h : A.reorder? s = .ok B) :
    B = A.reorder s := by
  rw [reorder?] at h
  cases hlines : checkLines s A.rows A.cols with
  | error fault =>
    rw [hlines] at h
    exact nomatch h
  | ok _ =>
    rw [hlines] at h
    exact (Except.ok.inj h).symm

theorem shape_of_reorder? {A B : SparseMatrix α} {s : Storage} (h : A.reorder? s = .ok B) :
    B.rows = A.rows ∧ B.cols = A.cols := by
  obtain rfl := eq_of_reorder? h
  exact ⟨rfl, rfl⟩

end SparseMatrix

end HybridGradient
