import HybridGradient.Scalar.Basic

/-!
# Entries in order

The entries of a sparse matrix are kept in a list, column after column or row
after row. An entry is inserted at its place in that order; if its position is
taken, its value is added to the one that is there.

* `Storage.insert`, `Storage.collect`: one entry, and many of them from the first
  to the last;
* `Storage.pairwise_before_collect`: what is collected is in order, and holds no
  position twice;
* `Storage.exists_samePosition_of_mem_collect`: it holds no position that was not
  among the entries collected.
-/

namespace HybridGradient

/-- A value at a position of a matrix. -/
structure Entry (α : Type) where
  /-- The row of the position. -/
  row : Nat
  /-- The column of the position. -/
  col : Nat
  /-- The value at the position. -/
  value : α
  deriving Repr

namespace Entry

variable {α : Type}

/-- Two entries have the same position. -/
def SamePosition (e f : Entry α) : Prop := e.row = f.row ∧ e.col = f.col

instance (e f : Entry α) : Decidable (e.SamePosition f) :=
  inferInstanceAs (Decidable (_ ∧ _))

/-- Another value at the position of an entry. -/
def withValue (e : Entry α) (v : α) : Entry α := { e with value := v }

theorem SamePosition.refl (e : Entry α) : e.SamePosition e := ⟨rfl, rfl⟩

theorem SamePosition.trans {e f g : Entry α} (h : e.SamePosition f) (h' : f.SamePosition g) :
    e.SamePosition g := ⟨h.1.trans h'.1, h.2.trans h'.2⟩

theorem samePosition_withValue (e : Entry α) (v : α) : (e.withValue v).SamePosition e :=
  ⟨rfl, rfl⟩

end Entry

/-- The order in which the entries of a matrix are stored. -/
inductive Storage where
  /-- Column after column, each from the first row to the last. -/
  | byColumn
  /-- Row after row, each from the first column to the last. -/
  | byRow
  deriving Repr, DecidableEq

namespace Storage

variable {α : Type}

/-- The line (column or row) in which an entry is stored. -/
def line : Storage → Entry α → Nat
  | byColumn, e => e.col
  | byRow, e => e.row

/-- The place of an entry within its line. -/
def place : Storage → Entry α → Nat
  | byColumn, e => e.row
  | byRow, e => e.col

/-- The number of lines of a shape. -/
def lines : Storage → (rows cols : Nat) → Nat
  | byColumn, _, cols => cols
  | byRow, rows, _ => rows

/-- An entry is stored before another one. -/
def Before (s : Storage) (e f : Entry α) : Prop :=
  s.line e < s.line f ∨ s.line e = s.line f ∧ s.place e < s.place f

instance (s : Storage) (e f : Entry α) : Decidable (s.Before e f) :=
  inferInstanceAs (Decidable (_ ∨ _))

theorem samePosition_iff (s : Storage) {e f : Entry α} :
    e.SamePosition f ↔ s.line e = s.line f ∧ s.place e = s.place f := by
  cases s
  · exact and_comm
  · exact Iff.rfl

theorem Before.trans {s : Storage} {e f g : Entry α} (h : s.Before e f) (h' : s.Before f g) :
    s.Before e g := by
  rw [Before] at h h' ⊢
  omega

/-- Of two entries at different positions, one is stored before the other. -/
theorem before_of_not_before {s : Storage} {e f : Entry α} (hne : ¬ e.SamePosition f)
    (h : ¬ s.Before e f) : s.Before f e := by
  rw [samePosition_iff s] at hne
  rw [Before] at h ⊢
  omega

/-- Whether an entry is stored before another one depends on their positions only. -/
theorem before_congr {s : Storage} {e e' f f' : Entry α} (he : e.SamePosition e')
    (hf : f.SamePosition f') : s.Before e f ↔ s.Before e' f' := by
  rw [samePosition_iff s] at he hf
  rw [Before, Before, he.1, he.2, hf.1, hf.2]

/-! ### Insertion -/

variable [Add α]

/-- An entry put into its place among others. At a position that is taken, the value
    is added to the one there. -/
def insert (s : Storage) (e : Entry α) : List (Entry α) → List (Entry α)
  | [] => [e]
  | f :: fs =>
    if e.SamePosition f then f.withValue (f.value + e.value) :: fs
    else if s.Before e f then e :: f :: fs
    else f :: insert s e fs

/-- The entries of a list, put into their places from the first to the last. -/
def collect (s : Storage) (entries : List (Entry α)) : List (Entry α) :=
  entries.foldl (fun es e => s.insert e es) []

theorem exists_samePosition_of_mem_insert {s : Storage} {e g : Entry α} {es : List (Entry α)}
    (h : g ∈ s.insert e es) : ∃ f ∈ e :: es, g.SamePosition f := by
  induction es with
  | nil => exact ⟨e, List.mem_cons_self, by rw [List.mem_singleton.1 h]; exact .refl e⟩
  | cons f fs ih =>
    rw [insert] at h
    split at h
    · rcases List.mem_cons.1 h with rfl | h
      · exact ⟨f, List.mem_cons_of_mem _ List.mem_cons_self, f.samePosition_withValue _⟩
      · exact ⟨g, List.mem_cons_of_mem _ (List.mem_cons_of_mem _ h), .refl g⟩
    · split at h
      · exact ⟨g, h, .refl g⟩
      · rcases List.mem_cons.1 h with rfl | h
        · exact ⟨g, List.mem_cons_of_mem _ List.mem_cons_self, .refl g⟩
        · obtain ⟨k, hk, hgk⟩ := ih h
          rcases List.mem_cons.1 hk with rfl | hk
          · exact ⟨k, List.mem_cons_self, hgk⟩
          · exact ⟨k, List.mem_cons_of_mem _ (List.mem_cons_of_mem _ hk), hgk⟩

theorem pairwise_before_insert {s : Storage} (e : Entry α) {es : List (Entry α)}
    (h : es.Pairwise s.Before) : (s.insert e es).Pairwise s.Before := by
  induction es with
  | nil => exact List.pairwise_singleton _ _
  | cons f fs ih =>
    obtain ⟨hf, hfs⟩ := List.pairwise_cons.1 h
    rw [insert]
    split
    · -- The sum stands where `f` stood.
      exact List.pairwise_cons.2 ⟨fun g hg =>
        (before_congr (f.samePosition_withValue _) (.refl g)).2 (hf g hg), hfs⟩
    · rename_i hne
      split
      · rename_i hef
        refine List.pairwise_cons.2 ⟨fun g hg => ?_, h⟩
        rcases List.mem_cons.1 hg with rfl | hg
        · exact hef
        · exact hef.trans (hf g hg)
      · rename_i hef
        refine List.pairwise_cons.2 ⟨fun g hg => ?_, ih hfs⟩
        obtain ⟨k, hk, hgk⟩ := exists_samePosition_of_mem_insert hg
        rw [before_congr (.refl f) hgk]
        rcases List.mem_cons.1 hk with rfl | hk
        · exact before_of_not_before hne hef
        · exact hf k hk

theorem exists_samePosition_of_mem_collect {s : Storage} {g : Entry α} {entries : List (Entry α)}
    (h : g ∈ s.collect entries) : ∃ f ∈ entries, g.SamePosition f := by
  have key (es : List (Entry α)) (hg : g ∈ entries.foldl (fun es e => s.insert e es) es) :
      (∃ f ∈ entries, g.SamePosition f) ∨ ∃ f ∈ es, g.SamePosition f := by
    clear h
    induction entries generalizing es with
    | nil => exact Or.inr ⟨g, hg, .refl g⟩
    | cons e rest ih =>
      rcases ih _ hg with ⟨f, hf, hgf⟩ | ⟨f, hf, hgf⟩
      · exact Or.inl ⟨f, List.mem_cons_of_mem _ hf, hgf⟩
      · obtain ⟨k, hk, hfk⟩ := exists_samePosition_of_mem_insert hf
        rcases List.mem_cons.1 hk with rfl | hk
        · exact Or.inl ⟨k, List.mem_cons_self, hgf.trans hfk⟩
        · exact Or.inr ⟨k, hk, hgf.trans hfk⟩
  rcases key [] h with hf | ⟨f, hf, _⟩
  · exact hf
  · exact absurd hf List.not_mem_nil

theorem pairwise_before_collect (s : Storage) (entries : List (Entry α)) :
    (s.collect entries).Pairwise s.Before := by
  have key (es : List (Entry α)) (h : es.Pairwise s.Before) :
      (entries.foldl (fun es e => s.insert e es) es).Pairwise s.Before := by
    induction entries generalizing es with
    | nil => exact h
    | cons e rest ih => exact ih _ (pairwise_before_insert e h)
  exact key [] List.Pairwise.nil

end Storage

end HybridGradient
