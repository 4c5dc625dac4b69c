/-
Reading expressions. From the loosest to the tightest, the operators are `or`, `and`, `not`, one
comparison, sums, products, the sign, and calls and attributes.

Every reader takes a bound that exceeds the number of tokens left. An expression nested in another
stands behind a bracket, so that its bound can be one less.
-/
import LivePatch.Syntax
import LivePatch.Syntax.Cursor

namespace LivePatch

namespace Expr

/-- Two operands with an operator between them, from the start of one to the end of the other. -/
def join (op : BinaryOp) (left right : Expr) : Expr :=
  binary op left right (left.span.merge right.span)

/-- An operand with an operator before it. -/
def lead (op : UnaryOp) (start : Span) (operand : Expr) : Expr :=
  unary op operand (start.merge operand.span)

end Expr

namespace BinaryOp

/-- The operator of a disjunction. -/
def ofDisjunction? : Token → Option BinaryOp
  | .keyword .or => some or
  | _ => none

/-- The operator of a conjunction. -/
def ofConjunction? : Token → Option BinaryOp
  | .keyword .and => some and
  | _ => none

/-- The comparison that a token stands for. -/
def ofComparison? : Token → Option BinaryOp
  | .sign .equalEqual => some equal
  | .sign .notEqual => some notEqual
  | .sign .less => some less
  | .sign .lessEqual => some lessEqual
  | .sign .greater => some greater
  | .sign .greaterEqual => some greaterEqual
  | _ => none

/-- The operator of a sum. -/
def ofSum? : Token → Option BinaryOp
  | .sign .plus => some add
  | .sign .minus => some sub
  | _ => none

/-- The operator of a product. -/
def ofProduct? : Token → Option BinaryOp
  | .sign .star => some mul
  | .sign .slash => some div
  | .sign .percent => some mod
  | _ => none

end BinaryOp

namespace Reader

/-- Goes on from `left` with operators that group to the left. -/
def chainFrom (op? : Token → Option BinaryOp) (operand : Reader Expr) : Nat → Expr → Reader Expr
  | 0, left => pure left
  | n + 1, left => do
    match (← peek).bind op? with
    | none => pure left
    | some op =>
      advance
      let right ← operand
      chainFrom op? operand n (.join op left right)

/-- Operands joined by operators that group to the left. -/
def chain (op? : Token → Option BinaryOp) (operand : Reader Expr) (n : Nat) : Reader Expr := do
  let left ← operand
  chainFrom op? operand n left

/-- An operand behind any number of the operator `op`, which is written `t`. -/
def led (t : Token) (op : UnaryOp) (operand : Reader Expr) : Nat → Reader Expr
  | 0 => expected .expression
  | n + 1 => do
    if ← at? t then
      let start ← expect t
      let e ← led t op operand n
      return .lead op start e
    else operand

/-- At most one comparison of two operands. -/
def compared (operand : Reader Expr) : Reader Expr := do
  let left ← operand
  match (← peek).bind BinaryOp.ofComparison? with
  | none => pure left
  | some op =>
    advance
    let right ← operand
    return .join op left right

/-- The arguments of a call, behind its opening bracket and through the closing one. -/
def arguments (expr : Reader Expr) (n : Nat) : Reader (List Expr) := do
  let args ← separated (.sign .rightParen) expr n
  let _ ← expect (.sign .rightParen)
  return args

/-- A literal, a name, or an expression in brackets, which keeps the place of its brackets. -/
def primary (expr : Reader Expr) : Reader Expr := fun c =>
  match c.rest with
  | ⟨.int n, s⟩ :: rest => .ok (.int n s) ⟨s, rest⟩
  | ⟨.str text, s⟩ :: rest => .ok (.str text s) ⟨s, rest⟩
  | ⟨.keyword .true, s⟩ :: rest => .ok (.bool true s) ⟨s, rest⟩
  | ⟨.keyword .false, s⟩ :: rest => .ok (.bool false s) ⟨s, rest⟩
  | ⟨.keyword .none, s⟩ :: rest => .ok (.none s) ⟨s, rest⟩
  | ⟨.ident x, s⟩ :: rest => .ok (.ident x s) ⟨s, rest⟩
  | ⟨.sign .leftParen, s⟩ :: rest =>
    (do
      let inner ← expr
      let close ← expect (.sign .rightParen)
      return inner.withSpan (s.merge close) : Reader Expr) ⟨s, rest⟩
  | found :: _ => .error (.unexpected .expression found) c
  | [] => .error (.endOfInput .expression) c

/-- Goes on from `e` with calls and attributes. -/
def trailersFrom (expr : Reader Expr) : Nat → Expr → Reader Expr
  | 0, e => pure e
  | n + 1, e => do
    if ← eat (.sign .leftParen) then
      let args ← arguments expr n
      let close ← last
      trailersFrom expr n (.call e args (e.span.merge close))
    else if ← eat (.sign .dot) then
      let (x, s) ← ident .attributeName
      trailersFrom expr n (.attr e x (e.span.merge s))
    else pure e

/-- A primary expression with the calls and attributes behind it. -/
def trailed (expr : Reader Expr) (n : Nat) : Reader Expr := do
  let e ← primary expr
  trailersFrom expr n e

/-- An expression with any number of signs before it. -/
def signed (expr : Reader Expr) (n : Nat) : Reader Expr :=
  led (.sign .minus) .neg (trailed expr n) n

/-- Products of signed expressions. -/
def product (expr : Reader Expr) (n : Nat) : Reader Expr :=
  chain BinaryOp.ofProduct? (signed expr n) n

/-- Sums of products. -/
def sum (expr : Reader Expr) (n : Nat) : Reader Expr :=
  chain BinaryOp.ofSum? (product expr n) n

/-- Sums, or one comparison of two sums, with any number of negations before. -/
def negated (expr : Reader Expr) (n : Nat) : Reader Expr :=
  led (.keyword .not) .not (compared (sum expr n)) n

/-- Conjunctions of negated comparisons. -/
def conjunction (expr : Reader Expr) (n : Nat) : Reader Expr :=
  chain BinaryOp.ofConjunction? (negated expr n) n

/-- Disjunctions of conjunctions. -/
def disjunction (expr : Reader Expr) (n : Nat) : Reader Expr :=
  chain BinaryOp.ofDisjunction? (conjunction expr n) n

/-- An expression. -/
def expression : Nat → Reader Expr
  | 0 => expected .expression
  | n + 1 => disjunction (expression n) (n + 1)

end Reader

end LivePatch
