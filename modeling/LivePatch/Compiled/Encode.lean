/-
The compiled form of a unit: a header with a mark and the version of the format, and behind it the
tree in bytes. Words are written with the lowest byte first, a text or a list after its length in
eight bytes, and a choice after its number in four.
-/
import LivePatch.Syntax
import LivePatch.Text.Utf8

namespace LivePatch

namespace Compiled

/-- The lowest `width` bytes of a number, the lowest first. -/
def wordBytes : Nat → Nat → List UInt8
  | 0, _ => []
  | width + 1, n => UInt8.ofNat (n % 256) :: wordBytes width (n / 256)

/-- A choice by its number. -/
def tagBytes (tag : Nat) : List UInt8 := wordBytes 4 tag

/-- The length of a text or a list. -/
def lengthBytes (n : Nat) : List UInt8 := wordBytes 8 n

/-- A number of 64 bits with a sign, as the word of the same bits. -/
def intBytes (n : Int64) : List UInt8 := wordBytes 8 n.toUInt64.toNat

def boolBytes (b : Bool) : List UInt8 := [if b then 1 else 0]

/-- A text after its length in bytes. -/
def textBytes (s : String) : List UInt8 :=
  let bytes := Text.Utf8.encode s
  lengthBytes bytes.length ++ bytes

/-- A value that may be absent: a byte that tells, and the value. -/
def optionBytes {α : Type} (encode : α → List UInt8) : Option α → List UInt8
  | none => [0]
  | some a => 1 :: encode a

/-- A span by its two ends. -/
def spanBytes (s : Span) : List UInt8 := wordBytes 4 s.start.toNat ++ wordBytes 4 s.stop.toNat

/-- The number of a binary operator. -/
def binaryTag : BinaryOp → Nat
  | .add => 0
  | .sub => 1
  | .mul => 2
  | .div => 3
  | .mod => 4
  | .equal => 5
  | .notEqual => 6
  | .less => 7
  | .lessEqual => 8
  | .greater => 9
  | .greaterEqual => 10
  | .and => 11
  | .or => 12

/-- The number of a unary operator. -/
def unaryTag : UnaryOp → Nat
  | .neg => 0
  | .not => 1

mutual

/-- An expression: its form with the parts, and its span. -/
def exprBytes : Expr → List UInt8
  | .int n s => tagBytes 0 ++ intBytes n ++ spanBytes s
  | .str text s => tagBytes 1 ++ textBytes text ++ spanBytes s
  | .bool b s => tagBytes 2 ++ boolBytes b ++ spanBytes s
  | .none s => tagBytes 3 ++ spanBytes s
  | .ident x s => tagBytes 4 ++ textBytes x ++ spanBytes s
  | .attr object x s => tagBytes 5 ++ exprBytes object ++ textBytes x ++ spanBytes s
  | .call callee args s =>
    tagBytes 6 ++ exprBytes callee ++ (lengthBytes args.length ++ exprsBytes args) ++ spanBytes s
  | .binary op left right s =>
    tagBytes 7 ++ tagBytes (binaryTag op) ++ exprBytes left ++ exprBytes right ++ spanBytes s
  | .unary op operand s =>
    tagBytes 8 ++ tagBytes (unaryTag op) ++ exprBytes operand ++ spanBytes s

def exprsBytes : List Expr → List UInt8
  | [] => []
  | e :: es => exprBytes e ++ exprsBytes es

end

/-- A parameter: its name, and its default if it has one. -/
def paramBytes (p : Param) : List UInt8 := textBytes p.name ++ optionBytes exprBytes p.default

/-- Items one after the other, behind their number. -/
def listBytes {α : Type} (encode : α → List UInt8) (xs : List α) : List UInt8 :=
  lengthBytes xs.length ++ xs.flatMap encode

mutual

def stmtBytes : Stmt → List UInt8
  | .bind x value s => tagBytes 0 ++ textBytes x ++ exprBytes value ++ spanBytes s
  | .assign target value s => tagBytes 1 ++ exprBytes target ++ exprBytes value ++ spanBytes s
  | .function x params body doc s =>
    tagBytes 2 ++ textBytes x ++ listBytes paramBytes params ++
      (lengthBytes body.length ++ stmtsBytes body) ++ optionBytes textBytes doc ++ spanBytes s
  | .classDef x bases body doc s =>
    tagBytes 3 ++ textBytes x ++ listBytes exprBytes bases ++
      (lengthBytes body.length ++ stmtsBytes body) ++ optionBytes textBytes doc ++ spanBytes s
  | .leave value s => tagBytes 4 ++ optionBytes exprBytes value ++ spanBytes s
  | .raise value s => tagBytes 5 ++ exprBytes value ++ spanBytes s
  | .branch cond whenTrue whenFalse s =>
    tagBytes 6 ++ exprBytes cond ++ (lengthBytes whenTrue.length ++ stmtsBytes whenTrue) ++
      (lengthBytes whenFalse.length ++ stmtsBytes whenFalse) ++ spanBytes s
  | .expr value => tagBytes 7 ++ exprBytes value

def stmtsBytes : List Stmt → List UInt8
  | [] => []
  | s :: ss => stmtBytes s ++ stmtsBytes ss

end

/-- The mark at the front of a compiled unit. -/
def magic : List UInt8 := [0x45, 0x4D, 0x42, 0x43]

/-- The version of the format. -/
def version : Nat := 1

/-- The tree of a unit in bytes. -/
def payload (u : CodeUnit) : List UInt8 :=
  textBytes u.origin ++ (lengthBytes u.body.length ++ stmtsBytes u.body)

/-- A unit in compiled form. -/
def encode (u : CodeUnit) : List UInt8 := magic ++ wordBytes 4 version ++ payload u

end Compiled

end LivePatch
