import HybridGradient.Record
import Mathlib.Algebra.GroupWithZero.Nat
import Mathlib.Data.List.Forall2
import Mathlib.Tactic.Common

/-!
# Words in a row

A row is read by its words, which is what stands between blanks, and by the columns under which
they end. Cells that hold no blank themselves are the words of their row, however wide they are.
Where they are also no wider than their columns, the widths alone decide where the words end and
how long the row is.

* `Text.isBlank`, `Text.words`, `Text.wordEnds`: blanks, the words of a text, and the places of
  their last characters;
* `Text.words_append_blank`, `Text.wordEnds_append`: texts that are put together;
* `Row.words_ofCells`: the words of a row are its cells;
* `Row.wordEnds_ofCells`, `Row.length_ofCells`: rows whose cells keep to their columns.
-/

namespace HybridGradient

namespace Text

/-! ### Words -/

/-- White space, which is 25 characters. -/
def isBlank (c : Char) : Bool :=
  9 ≤ c.toNat && c.toNat ≤ 13 || 0x2000 ≤ c.toNat && c.toNat ≤ 0x200A ||
    [0x20, 0x85, 0xA0, 0x1680, 0x2028, 0x2029, 0x202F, 0x205F, 0x3000].contains c.toNat

/-- What stands between blanks. -/
def words (text : String) : List String :=
  ((text.split isBlank).toList.map (·.copy)).filter (· ≠ "")

/-- The places of the characters with which words end: no blank is there, and what follows is a
    blank or nothing. -/
def wordEnds (cs : List Char) : List ℕ :=
  (List.range cs.length).filter fun i => cs[i]?.any (!isBlank ·) && cs[i + 1]?.all isBlank

/-- None of some characters is a blank. -/
def Visible (cs : List Char) : Prop := ∀ c ∈ cs, isBlank c = false

instance (cs : List Char) : Decidable (Visible cs) := List.decidableBAll _ cs

/-- A text that is one word. -/
structure IsWord (text : String) : Prop where
  ne_empty : text ≠ ""
  visible : Visible text.toList

instance (text : String) : Decidable (IsWord text) :=
  decidable_of_iff (text ≠ "" ∧ Visible text.toList)
    ⟨fun h => ⟨h.1, h.2⟩, fun h => ⟨h.ne_empty, h.visible⟩⟩

theorem words_eq (text : String) :
    words text = ((text.toList.splitOnP isBlank).filter (· ≠ [])).map String.ofList := by
  rw [words, String.toList_split_bool, List.filter_map]
  congr 1
  refine List.filter_congr fun cs _ => ?_
  simp

/-- What stands on either side of a blank is read by itself. -/
theorem words_append_blank (x y : String) : words (x ++ " " ++ y) = words x ++ words y := by
  have hsplit : (x ++ " " ++ y).toList = x.toList ++ ' ' :: y.toList := by
    simp [String.toList_append]
  rw [words_eq, words_eq, words_eq, hsplit, List.splitOnP_append_cons _ _ (by decide),
    List.filter_append, List.map_append]

theorem words_empty : words "" = [] := by
  rw [words_eq]
  simp

theorem words_of_isWord {text : String} (h : IsWord text) : words text = [text] := by
  have hne : text.toList ≠ [] := fun h0 => h.ne_empty (String.toList_eq_nil_iff.1 h0)
  rw [words_eq, List.splitOnP_eq_singleton h.visible]
  simp [h.ne_empty]

/-- Blanks in front of a text belong to no word. -/
theorem words_blanks_append (k : ℕ) (text : String) :
    words (String.ofList (List.replicate k ' ') ++ text) = words text := by
  induction k with
  | zero => simp
  | succ k ih =>
    have hcons : String.ofList (List.replicate (k + 1) ' ') ++ text =
        "" ++ " " ++ (String.ofList (List.replicate k ' ') ++ text) := by
      rw [← String.toList_inj]
      simp [List.replicate_succ]
    rw [hcons, words_append_blank, words_empty, List.nil_append, ih]

/-! ### The ends of words -/

theorem wordEnds_cons (c : Char) (cs : List Char) : wordEnds (c :: cs) =
    (if !isBlank c && cs.head?.all isBlank then [0] else []) ++ (wordEnds cs).map (· + 1) := by
  rw [wordEnds, List.length_cons, List.range_succ_eq_map, List.filter_cons, List.filter_map]
  have hlater : (List.range cs.length).filter ((fun i => (c :: cs)[i]?.any (!isBlank ·) &&
      (c :: cs)[i + 1]?.all isBlank) ∘ Nat.succ) = wordEnds cs :=
    List.filter_congr fun i _ => by simp
  rw [hlater]
  simp only [List.getElem?_cons_zero, Option.any_some, List.getElem?_cons_succ,
    List.head?_eq_getElem?]
  split <;> rfl

theorem wordEnds_blank_cons (cs : List Char) :
    wordEnds (' ' :: cs) = (wordEnds cs).map (· + 1) := by
  have hblank : isBlank ' ' = true := by decide
  rw [wordEnds_cons, hblank]
  rfl

theorem wordEnds_blanks_append (k : ℕ) (cs : List Char) :
    wordEnds (List.replicate k ' ' ++ cs) = (wordEnds cs).map (· + k) := by
  induction k with
  | zero => simp
  | succ k ih =>
    rw [List.replicate_succ, List.cons_append, wordEnds_blank_cons, ih, List.map_map]
    simp only [Function.comp_def, Nat.add_assoc]

/-- A word ends with its last character, if no other character follows. -/
theorem wordEnds_append {w rest : List Char} (hne : w ≠ []) (hw : Visible w)
    (hrest : rest.head?.all isBlank = true) :
    wordEnds (w ++ rest) = (w.length - 1) :: (wordEnds rest).map (· + w.length) := by
  induction w with
  | nil => exact absurd rfl hne
  | cons c w ih =>
    have hc := hw c List.mem_cons_self
    cases w with
    | nil =>
      rw [List.singleton_append, wordEnds_cons, hc, hrest]
      rfl
    | cons c' w =>
      have hc' := hw c' (List.mem_cons_of_mem _ List.mem_cons_self)
      have ih' := ih (List.cons_ne_nil _ _) fun d hd => hw d (List.mem_cons_of_mem _ hd)
      rw [List.cons_append, wordEnds_cons, ih', List.cons_append, List.head?_cons, Option.all_some,
        hc']
      simp [Nat.add_assoc, Function.comp_def]

end Text

/-! ### Rows -/

namespace Row

open Text

variable {w : ℕ} {ws : List ℕ} {cell : String} {cells : List String}

theorem words_flushRight (w : ℕ) (h : IsWord cell) : words (flushRight w cell) = [cell] := by
  rw [flushRight, words_blanks_append, words_of_isWord h]

/-- Cells before others are set off by a blank. -/
theorem intercalate_cons (w : ℕ) (cell : String) (hws : ws ≠ []) (hcells : cells ≠ []) :
    String.intercalate " " (List.zipWith flushRight (w :: ws) (cell :: cells)) =
      flushRight w cell ++ " " ++ String.intercalate " " (List.zipWith flushRight ws cells) := by
  have hne : List.zipWith flushRight ws cells ≠ [] := by simp [hws, hcells]
  rw [List.zipWith_cons_cons, String.intercalate_cons_of_ne_nil hne]

theorem intercalate_singleton (w : ℕ) (cell : String) (ws : List ℕ) :
    String.intercalate " " (List.zipWith flushRight (w :: ws) [cell]) = flushRight w cell := by
  rw [List.zipWith_cons_cons, List.zipWith_nil_right, String.intercalate_singleton]

/-- The words of cells side by side are the cells, as long as there are columns for them. -/
theorem words_intercalate (hlength : cells.length ≤ ws.length) (h : ∀ cell ∈ cells, IsWord cell) :
    words (String.intercalate " " (List.zipWith flushRight ws cells)) = cells := by
  induction cells generalizing ws with
  | nil => rw [List.zipWith_nil_right, String.intercalate_nil, words_empty]
  | cons cell cells ih =>
    obtain ⟨hcell, hcells⟩ := List.forall_mem_cons.1 h
    cases ws with
    | nil => exact absurd hlength (Nat.not_succ_le_zero _)
    | cons w ws =>
      have hrest : cells.length ≤ ws.length := Nat.le_of_succ_le_succ hlength
      by_cases hnil : cells = []
      · rw [hnil, intercalate_singleton, words_flushRight w hcell]
      · have hws : ws ≠ [] := by
          rintro rfl
          exact hnil (List.eq_nil_of_length_eq_zero (Nat.le_zero.1 hrest))
        rw [intercalate_cons w cell hws hnil, words_append_blank, words_flushRight w hcell,
          ih hrest hcells, List.singleton_append]

/-- In a row of words that are set side by side, the only blank is the space. -/
theorem eq_space_of_mem_intercalate (h : ∀ cell ∈ cells, IsWord cell) {c : Char}
    (hc : c ∈ (String.intercalate " " (List.zipWith flushRight ws cells)).toList)
    (hblank : isBlank c = true) : c = ' ' := by
  have hcell (w : ℕ) {cell : String} (hword : IsWord cell) (hc : c ∈ (flushRight w cell).toList) :
      c = ' ' := by
    rw [flushRight, String.toList_append, String.toList_ofList] at hc
    rcases List.mem_append.1 hc with hc | hc
    · exact List.eq_of_mem_replicate hc
    · exact absurd hblank (by simp [hword.visible c hc])
  induction cells generalizing ws with
  | nil =>
    rw [List.zipWith_nil_right, String.intercalate_nil] at hc
    exact absurd hc List.not_mem_nil
  | cons cell cells ih =>
    obtain ⟨hword, hwords⟩ := List.forall_mem_cons.1 h
    cases ws with
    | nil => exact absurd hc List.not_mem_nil
    | cons w ws =>
      by_cases hnil : ws = [] ∨ cells = []
      · have hrow : List.zipWith flushRight ws cells = [] := by simpa using hnil
        rw [List.zipWith_cons_cons, hrow, String.intercalate_singleton] at hc
        exact hcell w hword hc
      · obtain ⟨hws, hcells⟩ := not_or.1 hnil
        rw [intercalate_cons w cell hws hcells, String.toList_append, String.toList_append,
          List.append_assoc] at hc
        rcases List.mem_append.1 hc with hc | hc
        · exact hcell w hword hc
        · rcases List.mem_cons.1 hc with hc | hc
          · exact hc
          · exact ih hwords hc

/-! ### Columns -/

/-- A cell is one word and no wider than its column. -/
structure StaysIn (w : ℕ) (cell : String) : Prop where
  isWord : IsWord cell
  length_le : cell.length ≤ w

theorem StaysIn.length_flushRight (h : StaysIn w cell) : (flushRight w cell).length = w := by
  rw [flushRight, String.length_append, String.length_ofList, List.length_replicate,
    Nat.sub_add_cancel h.length_le]

/-- The word of a cell ends where its column does. -/
theorem StaysIn.wordEnds_append (h : StaysIn w cell) {rest : List Char}
    (hrest : rest.head?.all isBlank = true) :
    wordEnds ((flushRight w cell).toList ++ rest) = (w - 1) :: (wordEnds rest).map (· + w) := by
  have hne : cell.toList ≠ [] := fun h0 => h.isWord.ne_empty (String.toList_eq_nil_iff.1 h0)
  have hpos : 0 < cell.toList.length := List.length_pos_iff.2 hne
  have hlength : cell.toList.length ≤ w := h.length_le
  have hwidth : cell.toList.length + (w - cell.length) = w := by
    rw [← String.length_toList]
    omega
  have hlast : cell.toList.length - 1 + (w - cell.length) = w - 1 := by omega
  rw [flushRight, String.toList_append, String.toList_ofList, List.append_assoc,
    wordEnds_blanks_append, Text.wordEnds_append hne h.isWord.visible hrest, List.map_cons,
    List.map_map, hlast]
  simp only [Function.comp_def, Nat.add_assoc, hwidth]

/-- Where columns end that have given widths and stand side by side. -/
def columnEnds : List ℕ → List ℕ
  | [] => []
  | w :: ws => (w - 1) :: (columnEnds ws).map (· + (w + 1))

/-- The words of cells that keep to their columns end where these do. -/
theorem wordEnds_intercalate (h : List.Forall₂ StaysIn ws cells) :
    wordEnds (String.intercalate " " (List.zipWith flushRight ws cells)).toList =
      columnEnds ws := by
  induction h with
  | nil => rfl
  | @cons w cell ws cells hcell hcells ih =>
    by_cases hnil : cells = []
    · obtain rfl := hnil
      obtain rfl := List.forall₂_nil_right_iff.1 hcells
      have hend : wordEnds ((flushRight w cell).toList ++ []) = [w - 1] :=
        hcell.wordEnds_append rfl
      rw [List.append_nil] at hend
      rw [intercalate_singleton, hend]
      rfl
    · have hws : ws ≠ [] := fun h0 => hnil (List.forall₂_nil_left_iff.1 (h0 ▸ hcells))
      rw [intercalate_cons w cell hws hnil]
      generalize String.intercalate " " (List.zipWith flushRight ws cells) = next at ih ⊢
      have hrow : (flushRight w cell ++ " " ++ next).toList =
          (flushRight w cell).toList ++ ' ' :: next.toList := by simp [String.toList_append]
      rw [hrow, hcell.wordEnds_append rfl, wordEnds_blank_cons, ih, columnEnds, List.map_map]
      simp only [Function.comp_def, Nat.add_assoc, Nat.add_comm 1]

/-- Cells that keep to their columns fill these. -/
theorem length_intercalate (h : List.Forall₂ StaysIn ws cells) :
    (String.intercalate " " (List.zipWith flushRight ws cells)).length =
      ws.sum + (ws.length - 1) := by
  induction h with
  | nil => rfl
  | @cons w cell ws cells hcell hcells ih =>
    by_cases hnil : cells = []
    · obtain rfl := hnil
      obtain rfl := List.forall₂_nil_right_iff.1 hcells
      rw [intercalate_singleton, hcell.length_flushRight]
      rfl
    · have hws : ws ≠ [] := fun h0 => hnil (List.forall₂_nil_left_iff.1 (h0 ▸ hcells))
      have hpos : 0 < ws.length := List.length_pos_iff.2 hws
      rw [intercalate_cons w cell hws hnil, String.length_append, String.length_append,
        hcell.length_flushRight, ih, List.sum_cons, List.length_cons]
      change w + 1 + _ = _
      omega

/-! ### The columns of records -/

theorem words_ofCells (hlength : cells.length ≤ widths.length) (h : ∀ cell ∈ cells, IsWord cell) :
    words (ofCells cells) = cells := words_intercalate hlength h

theorem eq_space_of_mem_ofCells (h : ∀ cell ∈ cells, IsWord cell) {c : Char}
    (hc : c ∈ (ofCells cells).toList) (hblank : isBlank c = true) : c = ' ' :=
  eq_space_of_mem_intercalate h hc hblank

theorem wordEnds_ofCells (h : List.Forall₂ StaysIn widths cells) :
    wordEnds (ofCells cells).toList = columnEnds widths := wordEnds_intercalate h

theorem length_ofCells (h : List.Forall₂ StaysIn widths cells) :
    (ofCells cells).length = widths.sum + (widths.length - 1) := length_intercalate h

end Row

end HybridGradient
