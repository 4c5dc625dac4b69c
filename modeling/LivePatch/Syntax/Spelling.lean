/-
The spelling of a tree: the tokens that stand for it. An operand stands in brackets where it holds
together less tightly than its place asks for, and nowhere else. A semicolon follows every statement and
every item of a class.

From the loosest to the tightest, the levels of expressions are

  1 `or`   2 `and`   3 `not`   4 comparison   5 sum   6 product   7 sign   8 call, attribute, literal

The operators of a sum, a product, a conjunction and a disjunction group to the left; comparisons do not
group.
-/
import LivePatch.Syntax
import LivePatch.Token.Scan

namespace LivePatch

/-! ## Trees without places -/

mutual

/-- The expression without the places of its nodes. -/
def Expr.unplaced : Expr → Expr
  | .int n _ => .int n .dummy
  | .str text _ => .str text .dummy
  | .bool b _ => .bool b .dummy
  | .none _ => .none .dummy
  | .ident x _ => .ident x .dummy
  | .attr object x _ => .attr object.unplaced x .dummy
  | .call callee args _ => .call callee.unplaced (Expr.unplacedAll args) .dummy
  | .binary op left right _ => .binary op left.unplaced right.unplaced .dummy
  | .unary op operand _ => .unary op operand.unplaced .dummy

def Expr.unplacedAll : List Expr → List Expr
  | [] => []
  | e :: es => e.unplaced :: Expr.unplacedAll es

end

def Param.unplaced (p : Param) : Param := ⟨p.name, p.default.map Expr.unplaced⟩

mutual

/-- The statement without the places of its nodes. -/
def Stmt.unplaced : Stmt → Stmt
  | .bind x value _ => .bind x value.unplaced .dummy
  | .assign target value _ => .assign target.unplaced value.unplaced .dummy
  | .function x params body doc _ =>
    .function x (params.map Param.unplaced) (Stmt.unplacedAll body) doc .dummy
  | .classDef x bases body doc _ =>
    .classDef x (Expr.unplacedAll bases) (Stmt.unplacedAll body) doc .dummy
  | .leave value _ => .leave (value.map Expr.unplaced) .dummy
  | .raise value _ => .raise value.unplaced .dummy
  | .branch cond whenTrue whenFalse _ =>
    .branch cond.unplaced (Stmt.unplacedAll whenTrue) (Stmt.unplacedAll whenFalse) .dummy
  | .expr value => .expr value.unplaced

def Stmt.unplacedAll : List Stmt → List Stmt
  | [] => []
  | s :: ss => s.unplaced :: Stmt.unplacedAll ss

end

/-! ## Levels -/

namespace BinaryOp

/-- How tightly an operator holds its operands together. -/
def level : BinaryOp → Nat
  | or => 1
  | and => 2
  | equal | notEqual | less | lessEqual | greater | greaterEqual => 4
  | add | sub => 5
  | mul | div | mod => 6

/-- The level that the left operand has to have: that of the operator if it groups to the left. -/
def leftLevel : BinaryOp → Nat
  | equal | notEqual | less | lessEqual | greater | greaterEqual => 5
  | op => op.level

/-- The level that the right operand has to have. -/
def rightLevel (op : BinaryOp) : Nat := op.level + 1

def token : BinaryOp → Token
  | or => .keyword .or
  | and => .keyword .and
  | equal => .sign .equalEqual
  | notEqual => .sign .notEqual
  | less => .sign .less
  | lessEqual => .sign .lessEqual
  | greater => .sign .greater
  | greaterEqual => .sign .greaterEqual
  | add => .sign .plus
  | sub => .sign .minus
  | mul => .sign .star
  | div => .sign .slash
  | mod => .sign .percent

end BinaryOp

namespace UnaryOp

/-- The level of an operator, which is also the one that its operand has to have. -/
def level : UnaryOp → Nat
  | not => 3
  | neg => 7

def token : UnaryOp → Token
  | not => .keyword .not
  | neg => .sign .minus

end UnaryOp

/-- How tightly an expression holds together. -/
def Expr.level : Expr → Nat
  | .binary op .. => op.level
  | .unary op .. => op.level
  | _ => 8

/-! ## Expressions -/

namespace Spelling

/-- Some tokens, between brackets if these are wanted. -/
def bracketed (wanted : Bool) (ts : List Token) : List Token :=
  if wanted then .sign .leftParen :: ts ++ [.sign .rightParen] else ts

/-- Items with commas between them. -/
def commas : List (List Token) → List Token
  | [] => []
  | [ts] => ts
  | ts :: tss => ts ++ .sign .comma :: commas tss

end Spelling

open Spelling (bracketed commas)

mutual

/-- The tokens of an expression. -/
def Expr.spell : Expr → List Token
  | .int n _ => [.int n]
  | .str text _ => [.str text]
  | .bool true _ => [.keyword .true]
  | .bool false _ => [.keyword .false]
  | .none _ => [.keyword .none]
  | .ident x _ => [.ident x]
  | .attr object x _ => bracketed (object.level < 8) object.spell ++ [.sign .dot, .ident x]
  | .call callee args _ =>
    bracketed (callee.level < 8) callee.spell ++
      .sign .leftParen :: (commas (Expr.spellEach args) ++ [.sign .rightParen])
  | .binary op left right _ =>
    bracketed (left.level < op.leftLevel) left.spell ++
      op.token :: bracketed (right.level < op.rightLevel) right.spell
  | .unary op operand _ => op.token :: bracketed (operand.level < op.level) operand.spell

/-- The tokens of each of some expressions. -/
def Expr.spellEach : List Expr → List (List Token)
  | [] => []
  | e :: es => e.spell :: Expr.spellEach es

end

/-- The tokens of an expression in a place that asks for a level. -/
def Expr.spellAt (ℓ : Nat) (e : Expr) : List Token := bracketed (e.level < ℓ) e.spell

/-! ## Statements -/

/-- The choices between two spellings of the same tree. -/
structure Style where
  /-- A choice that stands alone in the second block of another follows `else` without braces. -/
  chains : Bool
  /-- A body that does nothing but return an expression is spelt as the expression. -/
  shortens : Bool

namespace Spelling

def braces (ts : List Token) : List Token := .sign .leftBrace :: ts ++ [.sign .rightBrace]

/-- The lines of a doc text. -/
def docLines (text : String) : List String := (text.toList.splitOn '\n').map String.ofList

/-- A doc text has a doc comment for each of its lines. -/
def docTokens (doc : Option String) : List Token :=
  match doc with
  | some text => (docLines text).map .doc
  | none => []

/-- The expression that a body returns, if it does nothing else. -/
def returned? : List Stmt → Option Expr
  | [.leave value _] => value
  | _ => none

/-- The body of a function, whose statements have the tokens `ts`: these between braces, or the
expression that it returns. -/
def functionBody (style : Style) (body : List Stmt) (ts : List Token) : List Token :=
  match if style.shortens then returned? body else none with
  | some e => .sign .equal :: e.spell
  | none => braces ts

end Spelling

open Spelling (braces docTokens functionBody)

namespace Stmt

/-- The doc text of a definition. -/
def doc? : Stmt → Option String
  | function _ _ _ doc _ | classDef _ _ _ doc _ => doc
  | _ => none

def isBranch : Stmt → Bool
  | branch .. => true
  | _ => false

end Stmt

/-- The tokens of a parameter. -/
def Param.spell (p : Param) : List Token :=
  .ident p.name ::
    match p.default with
    | some e => .sign .equal :: e.spell
    | none => []

mutual

/-- The tokens of a statement, without those of its doc text. -/
def Stmt.spell (style : Style) : Stmt → List Token
  | .bind x value _ => .keyword .bind :: .ident x :: .sign .equal :: value.spell
  | .assign target value _ => target.spell ++ .sign .equal :: value.spell
  | .function x params body _ _ =>
    .keyword .function :: .ident x :: .sign .leftParen :: (commas (params.map Param.spell) ++
      .sign .rightParen :: functionBody style body (Stmt.spellAll style body))
  | .classDef x bases body _ _ =>
    .keyword .classDef :: .ident x ::
      ((if bases.isEmpty then []
        else .sign .leftParen :: (commas (Expr.spellEach bases) ++ [.sign .rightParen])) ++
        braces (Stmt.spellAll style body))
  | .leave none _ => [.keyword .leave]
  | .leave (some value) _ => .keyword .leave :: value.spell
  | .raise value _ => .keyword .raise :: value.spell
  | .branch cond whenTrue whenFalse _ =>
    .keyword .branch :: (cond.spell ++
      (braces (Stmt.spellAll style whenTrue) ++ Stmt.spellOtherwise style whenFalse))
  | .expr value => value.spell

/-- The tokens of some statements, each behind those of its doc text and with a semicolon behind it. -/
def Stmt.spellAll (style : Style) : List Stmt → List Token
  | [] => []
  | s :: ss => docTokens s.doc? ++ (s.spell style ++ .sign .semicolon :: Stmt.spellAll style ss)

/-- The tokens of the second block of a choice, which is left out if it is empty. -/
def Stmt.spellOtherwise (style : Style) : List Stmt → List Token
  | [] => []
  | s :: ss =>
    .keyword .otherwise ::
      if style.chains && ss.isEmpty && s.isBranch then s.spell style
      else braces (docTokens s.doc? ++ (s.spell style ++ .sign .semicolon :: Stmt.spellAll style ss))

end

/-! ## Trees that can be spelt -/

namespace Spelling

/-- Whether a name is an identifier, and no keyword. -/
def isIdentifier (x : Name) : Bool :=
  match x.toList with
  | [] => false
  | c :: cs => Token.startsName c && cs.all Token.continuesName && (Keyword.ofSpelling? x).isNone

/-- Whether the lines of a doc text have no blanks at their ends. -/
def docTrimmed (doc : Option String) : Bool :=
  doc.all fun text => (docLines text).all fun line => Text.trim line.toList = line.toList

/-- Whether no parameter without a default comes behind one that has a default. -/
def defaultsLast : List Param → Bool
  | [] => true
  | p :: ps => if p.default.isSome then ps.all (·.default.isSome) else defaultsLast ps

end Spelling

open Spelling (isIdentifier docTrimmed defaultsLast)

mutual

/-- Whether an expression can be written down: its names are identifiers, and its numbers have no sign. -/
def Expr.wellFormed : Expr → Bool
  | .int n _ => 0 ≤ n
  | .str .. | .bool .. | .none _ => true
  | .ident x _ => isIdentifier x
  | .attr object x _ => object.wellFormed && isIdentifier x
  | .call callee args _ => callee.wellFormed && Expr.allWellFormed args
  | .binary _ left right _ => left.wellFormed && right.wellFormed
  | .unary _ operand _ => operand.wellFormed

def Expr.allWellFormed : List Expr → Bool
  | [] => true
  | e :: es => e.wellFormed && Expr.allWellFormed es

end

def Param.wellFormed (p : Param) : Bool := isIdentifier p.name && p.default.all Expr.wellFormed

/-- Whether a statement can be an item of a class. -/
def Stmt.isClassItem : Stmt → Bool
  | .bind .. | .function .. | .classDef .. => true
  | _ => false

mutual

/-- Whether a statement can be written down: besides what holds of its expressions, only names and
attributes are assigned to, defaulted parameters come last, a class has items only, and doc texts are
trimmed. -/
def Stmt.wellFormed : Stmt → Bool
  | .bind x value _ => isIdentifier x && value.wellFormed
  | .assign target value _ => target.isTarget && target.wellFormed && value.wellFormed
  | .function x params body doc _ =>
    isIdentifier x && params.all Param.wellFormed && defaultsLast params && docTrimmed doc &&
      Stmt.allWellFormed body
  | .classDef x bases body doc _ =>
    isIdentifier x && Expr.allWellFormed bases && docTrimmed doc && body.all Stmt.isClassItem &&
      Stmt.allWellFormed body
  | .leave value _ => value.all Expr.wellFormed
  | .raise value _ => value.wellFormed
  | .branch cond whenTrue whenFalse _ =>
    cond.wellFormed && Stmt.allWellFormed whenTrue && Stmt.allWellFormed whenFalse
  | .expr value => value.wellFormed

def Stmt.allWellFormed : List Stmt → Bool
  | [] => true
  | s :: ss => s.wellFormed && Stmt.allWellFormed ss

end

namespace CodeUnit

/-- The unit without the places of its nodes. -/
def unplaced (u : CodeUnit) : CodeUnit := ⟨u.origin, Stmt.unplacedAll u.body⟩

/-- The tokens of a unit. -/
def spell (style : Style) (u : CodeUnit) : List Token := Stmt.spellAll style u.body

/-- Whether a unit can be written down. -/
def wellFormed (u : CodeUnit) : Bool := Stmt.allWellFormed u.body

end CodeUnit

end LivePatch
