/-
Tokens of a source text. The text is cut into pieces from the front, each the longest that fits:
blanks and comments, which are skipped, and tokens. A piece that is no token ends the reading.
-/
import LivePatch.Token
import LivePatch.Text.Blank

namespace LivePatch

/-- Text that forms no token: a stray character, an unfinished string, or a literal with a bad escape
or out of range. -/
structure ScanError where
  text : String
  span : Span
  deriving DecidableEq, Repr

namespace ScanError

def message (e : ScanError) : String :=
  "unrecognized input `" ++ e.text ++ "` at " ++ e.span.render

end ScanError

namespace Token

/-! ## Character classes -/

def isSpace (c : Char) : Bool :=
  c = ' ' || c = '\t' || c = '\r' || c = '\n' || c = '\x0c'

/-- The decimal digits of ASCII. -/
def isDigit (c : Char) : Bool := '0' ≤ c && c ≤ '9'

/-- The letters of ASCII and the underscore, with which identifiers begin. -/
def startsName (c : Char) : Bool := ('A' ≤ c && c ≤ 'Z') || ('a' ≤ c && c ≤ 'z') || c = '_'

/-- The characters that identifiers go on with. -/
def continuesName (c : Char) : Bool := startsName c || isDigit c

/-! ## Literals -/

/-- The number that some digits stand for; underscores between them are passed over. -/
def decimal (cs : List Char) : Nat :=
  (cs.filter (· ≠ '_')).foldl (fun n c => 10 * n + (c.toNat - '0'.toNat)) 0

/-- The integer token for some digits, when the number fits in 64 bits with a sign. -/
def ofDigits? (cs : List Char) : Option Token :=
  if decimal cs ≤ Int64.maxValue.toInt.toNat then some (int (Int64.ofNat (decimal cs)))
  else Option.none

/-- How far a string literal reaches behind its opening quote, and whether it is closed there. A
backslash takes the next character with it. The literal cannot go on past the end of a line. -/
def literalExtent : List Char → Bool × Nat
  | [] => (false, 0)
  | ['\\'] => (false, 0)
  | '\\' :: c :: cs =>
    if c = '\n' then (false, 0) else ((literalExtent cs).1, (literalExtent cs).2 + 2)
  | c :: cs =>
    if c = '"' then (true, 1)
    else if c = '\n' then (false, 0)
    else ((literalExtent cs).1, (literalExtent cs).2 + 1)

/-- The character that an escape stands for. -/
def escaped? (c : Char) : Option Char :=
  if c = 'n' then some '\n'
  else if c = 't' then some '\t'
  else if c = '\\' then some '\\'
  else if c = '"' then some '"'
  else Option.none

/-- The text between the quotes of a literal, with its escapes resolved. -/
def unescape? : List Char → Option (List Char)
  | [] => some []
  | ['\\'] => Option.none
  | '\\' :: c :: cs => do
    let d ← escaped? c
    let ds ← unescape? cs
    return d :: ds
  | c :: cs => (unescape? cs).map (c :: ·)

/-- The token for a word: a keyword, or else an identifier. -/
def ofWord (cs : List Char) : Token :=
  match Keyword.ofSpelling? (String.ofList cs) with
  | some k => keyword k
  | Option.none => ident (String.ofList cs)

/-! ## Pieces -/

/-- What a piece of text is. -/
inductive Piece where
  | skipped
  | token (t : Token)
  | unknown
  deriving DecidableEq, Repr

/-- The piece for a token, if there is one. -/
def Piece.ofToken? : Option Token → Piece
  | some t => .token t
  | Option.none => .unknown

/-- The piece at the front of a text, and how many characters it has after its first. -/
structure Front where
  piece : Piece
  extra : Nat
  deriving DecidableEq, Repr

/-- A comment, whose characters after the first slash are `line`. A third slash makes it a doc
comment, which is a token. -/
def commentPiece : List Char → Piece
  | '/' :: '/' :: text => .token (doc (String.ofList (Text.trim text)))
  | _ => .skipped

/-- A string literal, whose characters after the opening quote are `cs`. -/
def literalFront (cs : List Char) : Front :=
  let (closed, extra) := literalExtent cs
  if closed then
    ⟨.ofToken? ((unescape? (cs.take (extra - 1))).map fun text => str (String.ofList text)), extra⟩
  else ⟨.unknown, extra⟩

/-- A sign, or else a stray character. -/
def signFront (cs : List Char) : Front :=
  match Sign.atFront? cs with
  | some s => ⟨.token (sign s), s.chars.length - 1⟩
  | Option.none => ⟨.unknown, 0⟩

/-- The longest piece at the front of a text that begins with `c`. -/
def front (c : Char) (cs : List Char) : Front :=
  if isSpace c then ⟨.skipped, (cs.takeWhile isSpace).length⟩
  else if c = '/' ∧ cs.head? = some '/' then
    let line := cs.takeWhile (· ≠ '\n')
    ⟨commentPiece line, line.length⟩
  else if isDigit c then
    let digits := cs.takeWhile fun d => isDigit d || d = '_'
    ⟨.ofToken? (ofDigits? (c :: digits)), digits.length⟩
  else if c = '"' then literalFront cs
  else if startsName c then
    let word := cs.takeWhile continuesName
    ⟨.token (ofWord (c :: word)), word.length⟩
  else signFront (c :: cs)

/-- The number of bytes of some characters. -/
def byteLength : List Char → Nat
  | [] => 0
  | c :: cs => c.utf8Size + byteLength cs

/-- The tokens of a text that begins at the byte `offset`. -/
def scanFrom (offset : Nat) : List Char → Except ScanError (List PlacedToken)
  | [] => .ok []
  | c :: cs =>
    let found := front c cs
    let taken := c :: cs.take found.extra
    let stop := offset + byteLength taken
    match found.piece with
    | .skipped => scanFrom stop (cs.drop found.extra)
    | .token t => (scanFrom stop (cs.drop found.extra)).map (⟨t, .ofOffsets offset stop⟩ :: ·)
    | .unknown => .error ⟨String.ofList taken, .ofOffsets offset stop⟩
  termination_by cs => cs.length
  decreasing_by all_goals (simp only [List.length_drop, List.length_cons]; omega)

def scan (source : String) : Except ScanError (List PlacedToken) := scanFrom 0 source.toList

end Token

end LivePatch
