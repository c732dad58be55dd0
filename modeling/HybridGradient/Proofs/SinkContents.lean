import HybridGradient.Proofs.Printing

/-!
# What a sink holds in the end

Lines are written to a sink one after the other, each with a line break after it, and a line that
was not taken whole does not keep the next one from being written. Nothing comes of that: the room
that a line was too long for is used up by what fitted of it. So all lines might as well be one
text that is written at once, and the sink holds a prefix of that, whichever byte it ends with.

* `Sink.write_write`: what is written in two pieces might be written in one;
* `Sink.write_lineBytes`: a line and its line break as two pieces, the second of which is
  left out if the first one was cut;
* `Sink.printed`: the bytes of lines, which read as the lines (`Sink.text_eq`);
* `Logger.logAll_write`: lines that go to a sink, by induction on their number;
* `Logger.logAll_write_prefix`: the contents of the sink, the warnings, and the lines read back.
-/

namespace HybridGradient

namespace Sink

variable (s : Sink)

/-! ### Pieces -/

theorem accepts_iff {bytes : Array UInt8} :
    s.accepts bytes = true ↔ ∀ room ∈ s.room, bytes.size ≤ room := by
  rw [accepts, beq_iff_eq, fitting]
  cases s.room with
  | none => simp
  | some room => simp

theorem toList_bytes_write (bytes : Array UInt8) : (s.write bytes).bytes.toList =
    s.bytes.toList ++ s.room.elim bytes.toList bytes.toList.take := by
  rw [write, fitting]
  cases s.room with
  | none => simp
  | some room => simp [List.take_eq_take_min]

/-- What is written in two pieces might be written in one. If the first piece was cut, the room is
    used up. -/
theorem write_write (a b : Array UInt8) : (s.write a).write b = s.write (a ++ b) := by
  have hroom : ((s.write a).write b).room = (s.write (a ++ b)).room := by
    simp [write, Function.comp_def, Nat.sub_sub]
  have hbytes : ((s.write a).write b).bytes = (s.write (a ++ b)).bytes := by
    rw [← Array.toList_inj, toList_bytes_write, toList_bytes_write, toList_bytes_write]
    simp only [write]
    cases s.room with
    | none => simp
    | some room => simp [List.take_append]
  exact congrArg₂ (fun room bytes => (⟨room, s.flushes, bytes⟩ : Sink)) hroom hbytes

theorem write_empty : s.write #[] = s := by
  have hbytes : (s.write #[]).bytes = s.bytes := by
    rw [← Array.toList_inj, toList_bytes_write]
    cases s.room with
    | none => simp
    | some room => simp
  have hroom : (s.write #[]).room = s.room := by simp [write]
  exact congrArg₂ (fun room bytes => (⟨room, s.flushes, bytes⟩ : Sink)) hroom hbytes

/-- What comes after a piece fits if both do, unless nothing comes. -/
theorem accepts_write {a b : Array UInt8} (hb : 0 < b.size) :
    (s.write a).accepts b = s.accepts (a ++ b) := by
  rw [Bool.eq_iff_iff, accepts_iff, accepts_iff, Array.size_append]
  simp only [write, Option.mem_def, Option.map_eq_some_iff]
  constructor
  · intro h room hroom
    have := h _ ⟨room, hroom, rfl⟩
    omega
  · rintro h _ ⟨room, hroom, rfl⟩
    have := h room hroom
    omega

/-- After a piece that was cut, nothing is stored any more. -/
theorem write_of_not_accepts {a : Array UInt8} (h : s.accepts a = false) (b : Array UInt8) :
    (s.write a).write b = s.write a := by
  obtain ⟨room, hroom, hlt⟩ : ∃ room, s.room = some room ∧ room < a.size := by
    simpa [accepts_iff] using Bool.eq_false_iff.1 h
  have hrooms : (s.write (a ++ b)).room = (s.write a).room := by
    simp only [write, hroom, Option.map_some, Array.size_append, Option.some.injEq]
    omega
  have hbytes : (s.write (a ++ b)).bytes = (s.write a).bytes := by
    rw [← Array.toList_inj, toList_bytes_write, toList_bytes_write, hroom]
    simp [List.take_append, Nat.sub_eq_zero_of_le hlt.le]
  rw [write_write]
  exact congrArg₂ (fun room bytes => (⟨room, s.flushes, bytes⟩ : Sink)) hrooms hbytes

/-! ### Lines -/

/-- A line and its line break are written as one, but might be written one after the other, and
    the line break only if the line was stored. -/
theorem write_lineBytes (line : String) : s.write (lineBytes line) =
    if s.accepts line.toUTF8.data then (s.write line.toUTF8.data).write #[10]
    else s.write line.toUTF8.data := by
  have hbytes : lineBytes line = line.toUTF8.data ++ #[10] := Array.push_eq_append
  split
  · rw [write_write, hbytes]
  · rename_i hcut
    rw [hbytes, ← write_write, s.write_of_not_accepts (Bool.eq_false_iff.2 hcut)]

theorem size_lineBytes_pos (line : String) : 0 < (lineBytes line).size := by
  rw [lineBytes, Array.size_push]
  exact Nat.succ_pos _

/-- A line that is written to a sink whose flushes succeed. -/
theorem writeLine_eq {s : Sink} (hs : s.flushes = none) (line : String) :
    s.writeLine line = (s.write (lineBytes line), s.accepts (lineBytes line)) := by
  have hflush : (s.write (lineBytes line)).flush? = some (s.write (lineBytes line)) := by
    rw [flush?, write, hs]
  rw [writeLine, hflush]
  cases s.accepts (lineBytes line) with
  | false => rfl
  | true => rfl

/-- The bytes of lines, each with the line break after it. -/
def printed (lines : List String) : Array UInt8 :=
  (lines.flatMap fun line => (lineBytes line).toList).toArray

theorem printed_concat (lines : List String) (line : String) :
    printed (lines ++ [line]) = printed lines ++ lineBytes line := by
  simp [printed]

/-- What is printed is the text in which a line break stands after every line. -/
theorem printed_eq (lines : List String) :
    printed lines = (String.intercalate "\n" (lines ++ [""])).toUTF8.data := by
  induction lines with
  | nil => rfl
  | cons line lines ih =>
    have hbytes : lineBytes line = (line ++ "\n").toUTF8.data := by
      rw [lineBytes, Array.push_eq_append, String.toUTF8_eq_toByteArray,
        String.toUTF8_eq_toByteArray, String.toByteArray_append, ByteArray.data_append]
      rfl
    rw [List.cons_append, String.intercalate_cons_of_ne_nil (by simp)]
    simp only [String.toUTF8_eq_toByteArray] at ih hbytes ⊢
    rw [String.toByteArray_append, ByteArray.data_append, ← ih, ← hbytes]
    simp [printed]

theorem text_eq {s : Sink} {whole : String} (h : s.bytes = whole.toUTF8.data) :
    s.text = whole := by
  have hwhole : s.textWithout? 0 = some whole := by
    have hbytes : ByteArray.mk (s.bytes.take (s.bytes.size - 0)) = whole.toUTF8 := by
      rw [h, Nat.sub_zero]
      exact congrArg ByteArray.mk (by simp)
    have hvalid : whole.toUTF8.IsValidUTF8 := whole.isValidUTF8
    rw [textWithout?, hbytes, String.fromUTF8?, dif_pos hvalid]
    rfl
  rw [text, hwhole]

/-- The number of lines that do not fit in whole when they are written one after the other. -/
def cutCount (s : Sink) (lines : List String) : ℕ :=
  (List.range lines.length).countP fun i => !s.accepts (printed (lines.take (i + 1)))

theorem cutCount_concat (lines : List String) (line : String) : s.cutCount (lines ++ [line]) =
    s.cutCount lines + if s.accepts (printed (lines ++ [line])) then 0 else 1 := by
  have hbefore : (List.range lines.length).countP (fun i =>
      !s.accepts (printed ((lines ++ [line]).take (i + 1)))) = s.cutCount lines := by
    refine List.countP_congr fun i hi => ?_
    rw [List.take_append_of_le_length (List.mem_range.1 hi)]
  have hlast : (lines ++ [line]).take (lines.length + 1) = lines ++ [line] :=
    List.take_of_length_le (by simp)
  rw [cutCount, List.length_append, List.length_singleton, List.range_succ, List.countP_append,
    hbefore, List.countP_singleton, hlast]
  cases s.accepts (printed (lines ++ [line])) with
  | false => rfl
  | true => rfl

end Sink

/-! ### Loggers -/

namespace Logger

open Sink

theorem logAll_concat (l : Logger) (lines : List String) (line : String) :
    l.logAll (lines ++ [line]) =
      (((l.logAll lines).1.log line).1, (l.logAll lines).2 ++ ((l.logAll lines).1.log line).2) := by
  rw [logAll, logAll, tellAll, tellAll, List.map_append, List.foldl_append]
  rfl

/-- Lines that go to a sink whose flushes succeed are written as one text, and there is one
    warning for each that does not fit in whole. -/
theorem logAll_write {s : Sink} (hs : s.flushes = none) (lines : List String) :
    (write s).logAll lines =
      (write (s.write (printed lines)), Array.replicate (s.cutCount lines) failure) := by
  induction lines using List.reverseRecOn with
  | nil =>
    rw [printed, List.flatMap_nil, write_empty]
    rfl
  | append_singleton lines line ih =>
    have hflushes : (s.write (printed lines)).flushes = none := hs
    rw [logAll_concat, ih, log, writeLine_eq hflushes, write_write,
      s.accepts_write (size_lineBytes_pos line), ← printed_concat, cutCount_concat]
    cases s.accepts (printed (lines ++ [line])) with
    | false => simp [Array.replicate_succ]
    | true => simp

/-- Lines that go to an empty sink with room for a number of bytes, or for any, whose flushes
    succeed. In the end the sink holds the first bytes of the lines with a line break after each,
    as many as fit. There is one warning for each line that, with its line break, does not end
    within the room. If the room suffices for all of them and no line holds a line break itself,
    what stands between the line breaks is what a list of lines would have collected, with
    nothing after the last one. -/
theorem logAll_write_prefix (room : Option ℕ) (lines : List String) :
    ∃ sink warnings, (write (Sink.ofLimits room none)).logAll lines = (write sink, warnings) ∧
      sink.bytes.toList = (printed lines).toList.take
        (room.elim (printed lines).size (min · (printed lines).size)) ∧
      warnings = Array.replicate ((List.range lines.length).countP fun i =>
        room.any (· < (printed (lines.take (i + 1))).size)) failure ∧
      ((∀ r ∈ room, (printed lines).size ≤ r) → (∀ line ∈ lines, '\n' ∉ line.toList) →
        ∃ collected, (collect #[]).logAll lines = (collect collected, #[]) ∧
          (sink.text.split '\n').toList.map (·.copy) = collected.toList ++ [""]) := by
  have hbytes : ((Sink.ofLimits room none).write (printed lines)).bytes.toList =
      room.elim (printed lines).toList (printed lines).toList.take :=
    Sink.toList_bytes_write _ _
  refine ⟨_, _, logAll_write rfl lines, ?_, ?_, fun hroom hbreaks => ?_⟩
  · rw [hbytes]
    cases room with
    | none => simp
    | some room => exact List.take_eq_take_min.trans (by simp)
  · congr 1
    refine List.countP_congr fun i _ => ?_
    rw [Bool.not_eq_true', Bool.eq_false_iff, ne_eq, accepts_iff]
    cases room with
    | none => simp [ofLimits]
    | some room => simp [ofLimits]
  · have hall : ((Sink.ofLimits room none).write (printed lines)).bytes = printed lines := by
      rw [← Array.toList_inj, hbytes]
      cases room with
      | none => rfl
      | some room => exact List.take_of_length_le (by simpa using hroom)
    have hlines : ∀ line ∈ lines ++ [""], '\n' ∉ line.toList :=
      List.forall_mem_append.2 ⟨hbreaks, by simp⟩
    refine ⟨lines.toArray, by simpa using logAll_collect #[] lines, ?_⟩
    rw [Sink.text_eq (hall.trans (printed_eq lines))]
    exact (String.toList_split_intercalate hlines).trans (if_neg (by simp))

/-- The room may end between a line and its line break, and what comes after that is cut as well.
    With room for all, also an empty line is read back. -/
theorem exists_prefix_cut :
    (∃ sink, (write (Sink.ofLimits (some 2) none)).logAll ["ab", "c"] =
        (write sink, #[failure, failure]) ∧ sink.bytes.toList = [97, 98]) ∧
    ∃ sink, (write (Sink.ofLimits (some 5) none)).logAll ["a", "", "b"] = (write sink, #[]) ∧
      (sink.text.split '\n').toList.map (·.copy) = ["a", "", "b", ""] := by
  constructor
  · obtain ⟨sink, warnings, hlog, hbytes, rfl, -⟩ := logAll_write_prefix (some 2) ["ab", "c"]
    have hprinted : (printed ["ab", "c"]).toList = [97, 98, 10, 99, 10] := by decide +kernel
    refine ⟨sink, hlog.trans (congrArg (Prod.mk (write sink)) (by decide +kernel)), ?_⟩
    rw [hbytes, hprinted]
    rfl
  · obtain ⟨sink, warnings, hlog, -, rfl, hread⟩ := logAll_write_prefix (some 5) ["a", "", "b"]
    have hsize : (printed ["a", "", "b"]).size = 5 := by decide +kernel
    obtain ⟨collected, hcollect, htext⟩ := hread (by simp [hsize]) (by simp)
    rw [logAll_collect] at hcollect
    obtain rfl := collect.inj (congrArg Prod.fst hcollect)
    exact ⟨sink, hlog.trans (congrArg (Prod.mk (write sink)) (by decide +kernel)), htext⟩

end Logger

end HybridGradient
