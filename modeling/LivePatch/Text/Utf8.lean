/-
Text from bytes. Bytes are text when they are well-formed UTF-8; when they are not, the first fault
is reported with the index of the sequence it lies in.
-/
namespace LivePatch.Text.Utf8

/-- The first place at which bytes stop being text. -/
inductive Fault where
  /-- The first `length` bytes of the sequence at `index` cannot start a character. -/
  | malformed (length index : Nat)
  /-- The bytes end inside the sequence at `index`. -/
  | cut (index : Nat)
  deriving DecidableEq, Repr

def Fault.message : Fault → String
  | .malformed length index => s!"invalid utf-8 sequence of {length} bytes from index {index}"
  | .cut index => s!"incomplete utf-8 byte sequence from index {index}"

/-- The ranges that the bytes after the first byte of a sequence lie in, so that the sequence is the
shortest form of a code point that is no surrogate; none for a byte that starts no sequence. -/
def tailRanges (first : UInt8) : Option (List (UInt8 × UInt8)) :=
  let any : UInt8 × UInt8 := (0x80, 0xBF)
  if first < 0x80 then some []
  else if first < 0xC2 then none
  else if first < 0xE0 then some [any]
  else if first = 0xE0 then some [(0xA0, 0xBF), any]
  else if first = 0xED then some [(0x80, 0x9F), any]
  else if first < 0xF0 then some [any, any]
  else if first = 0xF0 then some [(0x90, 0xBF), any, any]
  else if first < 0xF4 then some [any, any, any]
  else if first = 0xF4 then some [(0x80, 0x8F), any, any]
  else none

/-- The first fault, where `seen` bytes of the sequence at `index` have been read and `pending` are
the ranges its further bytes must lie in. -/
def faultFrom (index seen : Nat) (pending : List (UInt8 × UInt8)) : List UInt8 → Option Fault
  | [] => if pending.isEmpty then none else some (.cut index)
  | b :: bytes =>
    match pending with
    | [] =>
      match tailRanges b with
      | none => some (.malformed 1 index)
      | some [] => faultFrom (index + 1) 0 [] bytes
      | some pending => faultFrom index 1 pending bytes
    | (low, high) :: pending =>
      if low ≤ b ∧ b ≤ high then
        if pending.isEmpty then faultFrom (index + seen + 1) 0 [] bytes
        else faultFrom index (seen + 1) pending bytes
      else some (.malformed seen index)

/-- The first fault of some bytes. -/
def fault? (bytes : List UInt8) : Option Fault := faultFrom 0 0 [] bytes

/-- The bytes of a text. -/
def encode (s : String) : List UInt8 := s.toUTF8.data.toList

/-- The text of some bytes. -/
def decode (bytes : List UInt8) : Except Fault String :=
  match String.fromUTF8? ⟨bytes.toArray⟩ with
  | some s => .ok s
  | none => .error ((fault? bytes).getD (.cut bytes.length))

end LivePatch.Text.Utf8
