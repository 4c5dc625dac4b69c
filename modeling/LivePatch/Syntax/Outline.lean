/-
The outline of a syntax tree: one parenthesised line for each statement, with the span of every node
behind its name. Text is shown as a literal, names as they are.
-/
import LivePatch.Syntax
import LivePatch.Text.Literal

namespace LivePatch

namespace Outline

/-- Items between brackets, separated by one space. -/
def list (items : List String) : String := "[" ++ " ".intercalate items ++ "]"

/-- A node: its name with its span, then its parts. -/
def node (name : String) (span : Span) (parts : List String) : String :=
  "(" ++ " ".intercalate ((name ++ "@" ++ span.render) :: parts) ++ ")"

/-- What is shown for a part that is absent. -/
def absent : String := "-"

/-- A doc text, or the mark for its absence. -/
def doc : Option String → String
  | some text => Text.Literal.render text
  | none => absent

end Outline

open Outline (node list)

mutual

/-- The outline of an expression. -/
def Expr.outline : Expr → String
  | .int n s => node "int" s [toString n.toInt]
  | .str text s => node "str" s [Text.Literal.render text]
  | .bool b s => node "bool" s [if b then "true" else "false"]
  | .none s => node "none" s []
  | .ident x s => node "id" s [x]
  | .attr object x s => node "attr" s [object.outline, x]
  | .call callee args s => node "call" s [callee.outline, list (Expr.outlines args)]
  | .binary op left right s => node op.symbol s [left.outline, right.outline]
  | .unary op operand s => node ("u" ++ op.symbol) s [operand.outline]

/-- The outlines of some expressions. -/
def Expr.outlines : List Expr → List String
  | [] => []
  | e :: es => e.outline :: Expr.outlines es

end

/-- The outline of a parameter: its name, or its name and default. -/
def Param.outline (p : Param) : String :=
  match p.default with
  | some e => "(" ++ p.name ++ " " ++ e.outline ++ ")"
  | none => p.name

mutual

/-- The outline of a statement. -/
def Stmt.outline : Stmt → String
  | .bind x value s => node "let" s [x, value.outline]
  | .assign target value s => node "assign" s [target.outline, value.outline]
  | .function x params body doc s =>
    node "fn" s [x, Outline.doc doc, list (params.map Param.outline), list (Stmt.outlines body)]
  | .classDef x bases body doc s =>
    node "class" s [x, Outline.doc doc, list (Expr.outlines bases), list (Stmt.outlines body)]
  | .leave (some value) s => node "return" s [value.outline]
  | .leave none s => node "return" s [Outline.absent]
  | .raise value s => node "raise" s [value.outline]
  | .branch cond whenTrue whenFalse s =>
    node "if" s [cond.outline, list (Stmt.outlines whenTrue), list (Stmt.outlines whenFalse)]
  | .expr value => node "expr" value.span [value.outline]

/-- The outlines of some statements. -/
def Stmt.outlines : List Stmt → List String
  | [] => []
  | s :: ss => s.outline :: Stmt.outlines ss

end

end LivePatch
