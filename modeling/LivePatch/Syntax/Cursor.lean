/-
Reading from a list of tokens. A reader moves a cursor over the tokens and gives a result, or stops
with a fault.
-/
import LivePatch.Syntax.SyntaxError

namespace LivePatch

/-- A place between tokens: the tokens still to be read, and the span of the one just passed. -/
structure Cursor where
  last : Span
  rest : List PlacedToken
  deriving Repr

/-- What reads a part of the syntax. -/
abbrev Reader := EStateM SyntaxError Cursor

namespace Reader

/-- The next token, if there is one. -/
def peek : Reader (Option Token) := fun c => .ok (c.rest.head?.map (·.token)) c

/-- The span of the token just passed. -/
def last : Reader Span := fun c => .ok c.last c

/-- Stops because something else had to come next. -/
def expected {α : Type} (e : Expectation) : Reader α := fun c =>
  match c.rest with
  | found :: _ => .error (.unexpected e found) c
  | [] => .error (.endOfInput e) c

/-- Passes the next token; at the end of input it stays there. -/
def advance : Reader Unit := fun c =>
  match c.rest with
  | t :: rest => .ok () ⟨t.span, rest⟩
  | [] => .ok () c

/-- Whether the next token is `t`. -/
def at? (t : Token) : Reader Bool := return (← peek) = some t

/-- Passes the next token if it is `t`, and says whether it did. -/
def eat (t : Token) : Reader Bool := fun c =>
  match c.rest with
  | u :: rest => if u.token = t then .ok true ⟨u.span, rest⟩ else .ok false c
  | [] => .ok false c

/-- Passes the token `t`, which has to come next, and gives its span. -/
def expectAs (t : Token) (e : Expectation) : Reader Span := fun c =>
  match c.rest with
  | u :: rest => if u.token = t then .ok u.span ⟨u.span, rest⟩ else .error (.unexpected e u) c
  | [] => .error (.endOfInput e) c

/-- Passes the token `t`, which has to come next, and gives its span. -/
def expect (t : Token) : Reader Span := expectAs t (.token t)

/-- Passes an identifier, which has to come next. -/
def ident (e : Expectation) : Reader (Name × Span) := fun c =>
  match c.rest with
  | ⟨.ident x, s⟩ :: rest => .ok (x, s) ⟨s, rest⟩
  | found :: _ => .error (.unexpected e found) c
  | [] => .error (.endOfInput e) c

/-- The texts of the doc comments at the front of some tokens, and the cursor behind them. -/
def passDocs (last : Span) : List PlacedToken → List String × Cursor
  | ⟨.doc text, s⟩ :: rest => (text :: (passDocs s rest).1, (passDocs s rest).2)
  | rest => ([], ⟨last, rest⟩)

/-- Passes the doc comments that come next and joins their lines. -/
def docs : Reader (Option String) := fun c =>
  match passDocs c.last c.rest with
  | ([], behind) => .ok none behind
  | (lines, behind) => .ok (some ("\n".intercalate lines)) behind

/-! ## Repetition

A loop over the tokens has a bound that exceeds the number of tokens left. As every round passes a
token, the bound is never used up. -/

/-- Reads items until the end of input or a token `stop`, which is left in place. -/
def untilSign {α : Type} (stop : Token) (item : Reader α) : Nat → Reader (List α)
  | 0 => pure []
  | n + 1 => do
    match ← peek with
    | none => pure []
    | some t =>
      if t = stop then pure [] else
      let x ← item
      let xs ← untilSign stop item n
      return x :: xs

/-- Reads items separated by commas up to a token `stop`, which is left in place. A comma may follow
the last item. -/
def separated {α : Type} (stop : Token) (item : Reader α) : Nat → Reader (List α)
  | 0 => pure []
  | n + 1 => do
    if ← at? stop then pure [] else
    let x ← item
    if ← eat (.sign .comma) then
      let xs ← separated stop item n
      return x :: xs
    else return [x]

end Reader

end LivePatch
