/-
Reading compiled units. The bytes are read from left to right up to the first fault; what is left
behind the tree does not matter.
-/
import LivePatch.Compiled.Encode

namespace LivePatch

namespace Compiled

/-- Why bytes are no tree. -/
inductive PayloadError where
  /-- The bytes end inside a field of fixed width. -/
  | cutField
  /-- The bytes end before the text that was announced. -/
  | cutText
  | notText (fault : Text.Utf8.Fault)
  | badBool (byte : Nat)
  | badOption (byte : Nat)
  /-- A choice that is not among the `count` there are. -/
  | badTag (tag count : Nat)
  deriving DecidableEq, Repr

namespace PayloadError

def message : PayloadError → String
  | cutField => "io error: unexpected end of file"
  | cutText => "io error: "
  | notText fault => "string is not valid utf8: " ++ fault.message
  | badBool n => "invalid u8 while decoding bool, expected 0 or 1, found " ++ toString n
  | badOption n => "tag for enum is not valid, found " ++ toString n
  | badTag n count =>
    "invalid value: integer `" ++ toString n ++ "`, expected variant index 0 <= i < " ++
      toString count

end PayloadError

/-- Why bytes are no compiled unit. -/
inductive Corruption where
  | shortHeader (length : Nat)
  | badMagic
  | otherVersion (found : Nat)
  | payload (e : PayloadError)
  deriving DecidableEq, Repr

namespace Corruption

def message : Corruption → String
  | shortHeader n => "truncated header (" ++ toString n ++ " bytes)"
  | badMagic => "bad magic"
  | otherVersion n =>
    "format version " ++ toString n ++ ", expected " ++ toString Compiled.version
  | payload e => "failed to deserialize unit: " ++ e.message

end Corruption

/-- What reads a part of the tree from the front of the bytes. -/
abbrev Decoder := EStateM PayloadError (List UInt8)

namespace Decoder

/-- A number in `width` bytes, the lowest first. -/
def word : Nat → Decoder Nat
  | 0 => pure 0
  | width + 1 => fun bytes =>
    match bytes with
    | [] => .error .cutField bytes
    | b :: bytes =>
      match word width bytes with
      | .ok n bytes => .ok (b.toNat + 256 * n) bytes
      | .error e bytes => .error e bytes

/-- The number of one of `count` choices. -/
def tag (count : Nat) : Decoder Nat := do
  let n ← word 4
  if n < count then return n else throw (.badTag n count)

/-- A number of 64 bits with a sign. -/
def int : Decoder Int64 := do
  let n ← word 8
  return (UInt64.ofNat n).toInt64

def bool : Decoder Bool := do
  match ← word 1 with
  | 0 => return false
  | 1 => return true
  | n => throw (.badBool n)

/-- The first `n` bytes, if there are so many, and the others. -/
def split? : Nat → List UInt8 → Option (List UInt8 × List UInt8)
  | 0, bytes => some ([], bytes)
  | _ + 1, [] => none
  | n + 1, b :: bytes => (split? n bytes).map fun (front, rest) => (b :: front, rest)

def text : Decoder String := do
  let n ← word 8
  let bytes ← get
  match split? n bytes with
  | none => throw .cutText
  | some (front, rest) =>
    set rest
    match Text.Utf8.decode front with
    | .ok s => return s
    | .error fault => throw (.notText fault)

/-- A value that may be absent. -/
def option {α : Type} (item : Decoder α) : Decoder (Option α) := do
  match ← word 1 with
  | 0 => return none
  | 1 => some <$> item
  | n => throw (.badOption n)

def many {α : Type} (item : Decoder α) : Nat → Decoder (List α)
  | 0 => return []
  | n + 1 => do
    let x ← item
    let xs ← many item n
    return x :: xs

/-- Items behind their number. -/
def list {α : Type} (item : Decoder α) : Decoder (List α) := do
  let n ← word 8
  many item n

def span : Decoder Span := do
  let start ← word 4
  let stop ← word 4
  return ⟨UInt32.ofNat start, UInt32.ofNat stop⟩

def binaryOp : Decoder BinaryOp := do
  match ← tag 13 with
  | 0 => return .add
  | 1 => return .sub
  | 2 => return .mul
  | 3 => return .div
  | 4 => return .mod
  | 5 => return .equal
  | 6 => return .notEqual
  | 7 => return .less
  | 8 => return .lessEqual
  | 9 => return .greater
  | 10 => return .greaterEqual
  | 11 => return .and
  | _ => return .or

def unaryOp : Decoder UnaryOp := do
  match ← tag 2 with
  | 0 => return .neg
  | _ => return .not

/-- An expression in which at most `n` expressions are nested in one another. Every one takes up at
least the bytes of its number, so that the number of bytes is bound enough. -/
def expr : Nat → Decoder Expr
  | 0 => throw .cutField
  | n + 1 => do
    match ← tag 9 with
    | 0 => return .int (← int) (← span)
    | 1 => return .str (← text) (← span)
    | 2 => return .bool (← bool) (← span)
    | 3 => return .none (← span)
    | 4 => return .ident (← text) (← span)
    | 5 => return .attr (← expr n) (← text) (← span)
    | 6 => return .call (← expr n) (← list (expr n)) (← span)
    | 7 => return .binary (← binaryOp) (← expr n) (← expr n) (← span)
    | _ => return .unary (← unaryOp) (← expr n) (← span)

def param (n : Nat) : Decoder Param := return ⟨← text, ← option (expr n)⟩

/-- A statement in which at most `n` statements are nested in one another. -/
def stmt : Nat → Decoder Stmt
  | 0 => throw .cutField
  | n + 1 => do
    match ← tag 8 with
    | 0 => return .bind (← text) (← expr (n + 1)) (← span)
    | 1 => return .assign (← expr (n + 1)) (← expr (n + 1)) (← span)
    | 2 =>
      let x ← text
      let params ← list (param (n + 1))
      let body ← list (stmt n)
      let doc ← option text
      return .function x params body doc (← span)
    | 3 =>
      let x ← text
      let bases ← list (expr (n + 1))
      let body ← list (stmt n)
      let doc ← option text
      return .classDef x bases body doc (← span)
    | 4 => return .leave (← option (expr (n + 1))) (← span)
    | 5 => return .raise (← expr (n + 1)) (← span)
    | 6 => return .branch (← expr (n + 1)) (← list (stmt n)) (← list (stmt n)) (← span)
    | _ => return .expr (← expr (n + 1))

/-- A unit, where `n` bounds the nesting. -/
def unit (n : Nat) : Decoder CodeUnit := return ⟨← text, ← list (stmt n)⟩

end Decoder

/-- The tree that some bytes hold. -/
def decodePayload (bytes : List UInt8) : Except PayloadError CodeUnit :=
  match Decoder.unit (bytes.length + 1) bytes with
  | .ok u _ => .ok u
  | .error e _ => .error e

/-- The version that a header gives behind its mark. -/
def versionOf (bytes : List UInt8) : Except PayloadError Nat :=
  match Decoder.word 4 bytes with
  | .ok n _ => .ok n
  | .error e _ => .error e

/-- The unit that some bytes are the compiled form of. -/
def decode (bytes : List UInt8) : Except Corruption CodeUnit :=
  if bytes.length < 8 then .error (.shortHeader bytes.length)
  else if bytes.take 4 ≠ magic then .error .badMagic
  else
    match versionOf (bytes.drop 4) with
    | .error e => .error (.payload e)
    | .ok found =>
      if found ≠ version then .error (.otherVersion found)
      else
        match decodePayload (bytes.drop 8) with
        | .ok u => .ok u
        | .error e => .error (.payload e)

end Compiled

end LivePatch
