/-
Places in source text: byte ranges, and lines and columns counted from one.
-/
namespace LivePatch

/-- A range of byte offsets, from `start` up to and not including `stop`. -/
structure Span where
  start : UInt32
  stop : UInt32
  deriving DecidableEq, Repr, Inhabited

namespace Span

/-- The span of what has no place of its own. -/
def dummy : Span := ⟨0, 0⟩

/-- An offset as a 32-bit word, the largest word standing for all that do not fit. -/
def clamp (offset : Nat) : UInt32 :=
  if offset < UInt32.size then UInt32.ofNat offset else UInt32.ofNat (UInt32.size - 1)

/-- The span between two offsets. -/
def ofOffsets (start stop : Nat) : Span := ⟨clamp start, clamp stop⟩

/-- The smallest span that covers both. -/
def merge (a b : Span) : Span :=
  ⟨if b.start < a.start then b.start else a.start, if a.stop < b.stop then b.stop else a.stop⟩

/-- The number of bytes covered, none when the ends are crossed. -/
def length (s : Span) : UInt32 := if s.start ≤ s.stop then s.stop - s.start else 0

/-- A span that covers nothing. -/
def isEmpty (s : Span) : Bool := s.length == 0

/-- The two offsets with two dots between them. -/
def render (s : Span) : String :=
  toString s.start.toNat ++ ".." ++ toString s.stop.toNat

end Span

/-- A line and a column, both counted from one; columns count characters. -/
structure Position where
  line : Nat
  column : Nat
  deriving DecidableEq, Repr

namespace Position

/-- The characters that take up exactly the given number of bytes at the front of a text, if a
character ends there. -/
def takeBytes : List Char → Nat → Option (List Char)
  | _, 0 => some []
  | [], _ + 1 => none
  | c :: cs, n => if c.utf8Size ≤ n then (takeBytes cs (n - c.utf8Size)).map (c :: ·) else none

/-- The position reached after some characters. -/
def after (before : List Char) : Position :=
  ⟨before.count '\n' + 1, (before.reverse.takeWhile (· ≠ '\n')).length + 1⟩

/-- The position of a byte offset. An offset past the end, or inside a character, is reported at the
end of the text. -/
def ofOffset (source : String) (offset : Nat) : Position :=
  after ((takeBytes source.toList offset).getD source.toList)

end Position

end LivePatch
