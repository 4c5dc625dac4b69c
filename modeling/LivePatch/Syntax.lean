/-
The syntax tree of a unit of code. A tree is plain data: it is read once, then run, or stored and
run later. Every node keeps the span of the text it stands for.
-/
import LivePatch.Name
import LivePatch.Span

namespace LivePatch

/-- The operators that stand between two operands. -/
inductive BinaryOp where
  | add | sub | mul | div | mod
  | equal | notEqual | less | lessEqual | greater | greaterEqual
  | and | or
  deriving DecidableEq, Repr

namespace BinaryOp

/-- The sign of an operator. -/
def symbol : BinaryOp → String
  | add => "+"
  | sub => "-"
  | mul => "*"
  | div => "/"
  | mod => "%"
  | equal => "=="
  | notEqual => "!="
  | less => "<"
  | lessEqual => "<="
  | greater => ">"
  | greaterEqual => ">="
  | and => "and"
  | or => "or"

end BinaryOp

/-- The operators that stand before one operand. -/
inductive UnaryOp where
  | neg | not
  deriving DecidableEq, Repr

namespace UnaryOp

/-- The sign of an operator. -/
def symbol : UnaryOp → String
  | neg => "-"
  | not => "not"

end UnaryOp

inductive Expr where
  | int (value : Int64) (span : Span)
  | str (text : String) (span : Span)
  | bool (value : Bool) (span : Span)
  | none (span : Span)
  | ident (name : Name) (span : Span)
  | attr (object : Expr) (name : Name) (span : Span)
  | call (callee : Expr) (args : List Expr) (span : Span)
  | binary (op : BinaryOp) (left right : Expr) (span : Span)
  | unary (op : UnaryOp) (operand : Expr) (span : Span)
  deriving Repr, Inhabited

namespace Expr

def span : Expr → Span
  | int _ s | str _ s | bool _ s | none s | ident _ s | attr _ _ s | call _ _ s | binary _ _ _ s
  | unary _ _ s => s

/-- The same expression at another place. -/
def withSpan (s : Span) : Expr → Expr
  | int n _ => int n s
  | str t _ => str t s
  | bool b _ => bool b s
  | none _ => none s
  | ident x _ => ident x s
  | attr e a _ => attr e a s
  | call f es _ => call f es s
  | binary op l r _ => binary op l r s
  | unary op e _ => unary op e s

@[simp] theorem span_withSpan (s : Span) (e : Expr) : (e.withSpan s).span = s := by
  cases e <;> rfl

/-- The expressions that can be assigned to: names and attributes. -/
def isTarget : Expr → Bool
  | ident .. | attr .. => true
  | _ => false

end Expr

/-- A parameter of a function, with the expression that gives its value when no argument does. -/
structure Param where
  name : Name
  default : Option Expr
  deriving Repr, Inhabited

inductive Stmt where
  /-- Binds a name in the innermost scope. -/
  | bind (name : Name) (value : Expr) (span : Span)
  | assign (target value : Expr) (span : Span)
  | function (name : Name) (params : List Param) (body : List Stmt) (doc : Option String)
      (span : Span)
  | classDef (name : Name) (bases : List Expr) (body : List Stmt) (doc : Option String)
      (span : Span)
  /-- Leaves the function, with a value if one is given. -/
  | leave (value : Option Expr) (span : Span)
  | raise (value : Expr) (span : Span)
  | branch (cond : Expr) (whenTrue whenFalse : List Stmt) (span : Span)
  | expr (value : Expr)
  deriving Repr, Inhabited

namespace Stmt

def span : Stmt → Span
  | bind _ _ s | assign _ _ s | function _ _ _ _ s | classDef _ _ _ _ s | leave _ s | raise _ s
  | branch _ _ _ s => s
  | expr e => e.span

end Stmt

/-- A unit of code: its statements, and the name of the storage they came from. -/
structure CodeUnit where
  origin : String
  body : List Stmt
  deriving Repr, Inhabited

end LivePatch
