/-!
# Sinks

A sink takes bytes as long as it has room, and can be flushed as long as it is
able to. A write for which the room does not suffice stores what fits, and
fails; from then on only the empty write succeeds.
-/

namespace HybridGradient

/-- What was written to a limited destination, and what it can still take. -/
structure Sink where
  /-- The number of bytes that still fit; without one there is no limit. -/
  room : Option Nat
  /-- The number of flushes that still succeed; without one there is no limit. -/
  flushes : Option Nat
  /-- The bytes that were stored. -/
  bytes : Array UInt8
  deriving Repr

namespace Sink

/-- An empty sink. -/
def ofLimits (room flushes : Option Nat) : Sink := ⟨room, flushes, #[]⟩

/-- How many of a number of bytes fit. -/
def fitting (s : Sink) (count : Nat) : Nat :=
  match s.room with
  | none => count
  | some room => min room count

/-- The sink after a write. -/
def write (s : Sink) (bytes : Array UInt8) : Sink where
  room := s.room.map (· - bytes.size)
  flushes := s.flushes
  bytes := s.bytes ++ bytes.take (s.fitting bytes.size)

/-- Whether a write stores all of its bytes. -/
def accepts (s : Sink) (bytes : Array UInt8) : Bool := s.fitting bytes.size == bytes.size

/-- The sink after a flush, if it succeeds. -/
def flush? (s : Sink) : Option Sink :=
  match s.flushes with
  | none => some s
  | some 0 => none
  | some (n + 1) => some { s with flushes := some n }

/-- The bytes of a line with the line break after it. -/
def lineBytes (line : String) : Array UInt8 := line.toUTF8.data.push 10

/-- The sink after a line with a line break was written and flushed, and whether
    both succeeded. A line of which not all was stored is not flushed. -/
def writeLine (s : Sink) (line : String) : Sink × Bool :=
  let bytes := lineBytes line
  let written := s.write bytes
  if s.accepts bytes then
    match written.flush? with
    | some flushed => (flushed, true)
    | none => (written, false)
  else (written, false)

/-- What was stored, without the last `cut` bytes, as text. -/
def textWithout? (s : Sink) (cut : Nat) : Option String :=
  String.fromUTF8? (ByteArray.mk (s.bytes.take (s.bytes.size - cut)))

/-- What was stored, as text. The room may have ended within the last character, up
    to three bytes of which are then left over; they read as one replacement
    character. -/
def text (s : Sink) : String :=
  match s.textWithout? 0 with
  | some whole => whole
  | none => (([1, 2, 3].findSome? s.textWithout?).getD "").push '\uFFFD'

end Sink

end HybridGradient
