/-
Reading statements and whole units.

As for expressions, every reader takes a bound that exceeds the number of tokens left, and a
statement nested in another stands behind a brace.
-/
import LivePatch.Syntax.Expression

namespace LivePatch

namespace Reader

/-- Statements between braces. -/
def block (stmt : Reader Stmt) (n : Nat) : Reader (List Stmt) := do
  let _ ← expect (.sign .leftBrace)
  let body ← untilSign (.sign .rightBrace) stmt n
  let _ ← expect (.sign .rightBrace)
  return body

/-- The binding of a name. -/
def binding (expr : Reader Expr) : Reader Stmt := do
  let start ← expect (.keyword .bind)
  let (x, _) ← ident .bindingName
  let _ ← expect (.sign .equal)
  let value ← expr
  return .bind x value (start.merge value.span)

/-- The end of a function, with a value unless the statement ends at once. -/
def leaving (expr : Reader Expr) : Reader Stmt := do
  let start ← expect (.keyword .leave)
  match ← peek with
  | none | some (.sign .rightBrace) | some (.sign .semicolon) => return .leave none start
  | some _ =>
    let value ← expr
    return .leave (some value) (start.merge value.span)

/-- The raising of an error. -/
def raising (expr : Reader Expr) : Reader Stmt := do
  let start ← expect (.keyword .raise)
  let value ← expr
  return .raise value (start.merge value.span)

/-- A choice between two blocks. The second may be left out, or be a choice itself. -/
def branching (expr : Reader Expr) (stmt : Reader Stmt) : Nat → Reader Stmt
  | 0 => expected (.token (.keyword .branch))
  | n + 1 => do
    let start ← expect (.keyword .branch)
    let cond ← expr
    let whenTrue ← block stmt n
    let whenFalse ←
      if ← eat (.keyword .otherwise) then
        if ← at? (.keyword .branch) then
          let other ← branching expr stmt n
          pure [other]
        else block stmt n
      else pure []
    let stop ← last
    return .branch cond whenTrue whenFalse (start.merge stop)

/-- An assignment, or an expression on its own. -/
def assignment (expr : Reader Expr) : Reader Stmt := do
  let target ← expr
  if ← eat (.sign .equal) then
    if target.isTarget then
      let value ← expr
      return .assign target value (target.span.merge value.span)
    else throw (.assignTarget target.span)
  else return .expr target

/-- Parameters up to the closing bracket, which is left in place. Once a parameter has a default, all
later ones need one: `defaulted` says whether one had. -/
def params (expr : Reader Expr) (defaulted : Bool) : Nat → Reader (List Param)
  | 0 => pure []
  | n + 1 => do
    if ← at? (.sign .rightParen) then return []
    let (x, s) ← ident .parameterName
    let default ← if ← eat (.sign .equal) then some <$> expr else pure none
    if default.isNone && defaulted then throw (.defaultOrder x s)
    if ← eat (.sign .comma) then
      let ps ← params expr (defaulted || default.isSome) n
      return ⟨x, default⟩ :: ps
    else return [⟨x, default⟩]

/-- The definition of a function. A body that is an expression stands for its return. -/
def function (expr : Reader Expr) (stmt : Reader Stmt) (n : Nat) (doc : Option String) :
    Reader Stmt := do
  let start ← expect (.keyword .function)
  let (x, _) ← ident .functionName
  let _ ← expect (.sign .leftParen)
  let ps ← params expr false n
  let _ ← expect (.sign .rightParen)
  let body ←
    if ← eat (.sign .equal) then
      let value ← expr
      pure [.leave (some value) value.span]
    else block stmt n
  let stop ← last
  return .function x ps body doc (start.merge stop)

/-- An item of a class body, where `nested` reads a class. -/
def classItem (expr : Reader Expr) (stmt : Reader Stmt) (nested : Option String → Reader Stmt)
    (n : Nat) : Reader Stmt := do
  let doc ← docs
  let item ←
    match ← peek, doc with
    | some (.keyword .function), _ => function expr stmt n doc
    | some (.keyword .classDef), _ => nested doc
    | some (.keyword .bind), none => binding expr
    | _, _ => expected .classItem
  let _ ← eat (.sign .semicolon)
  return item

/-- The definition of a class. -/
def classDef (expr : Reader Expr) (stmt : Reader Stmt) : Nat → Option String → Reader Stmt
  | 0, _ => expected (.token (.keyword .classDef))
  | n + 1, doc => do
    let start ← expect (.keyword .classDef)
    let (x, _) ← ident .className
    let bases ← if ← eat (.sign .leftParen) then arguments expr n else pure []
    let _ ← expect (.sign .leftBrace)
    let body ← untilSign (.sign .rightBrace) (classItem expr stmt (classDef expr stmt n) n) n
    let _ ← expectAs (.sign .rightBrace) .classItem
    let stop ← last
    return .classDef x bases body doc (start.merge stop)

/-- A statement without the semicolon behind it, where `doc` is the doc text before it. Only a
definition takes a doc text. -/
def undelimited (expr : Reader Expr) (stmt : Reader Stmt) (n : Nat) (doc : Option String) :
    Reader Stmt := do
  match ← peek, doc with
  | some (.keyword .function), _ => function expr stmt n doc
  | some (.keyword .classDef), _ => classDef expr stmt n doc
  | _, some _ => expected .documented
  | some (.keyword .bind), none => binding expr
  | some (.keyword .leave), none => leaving expr
  | some (.keyword .raise), none => raising expr
  | some (.keyword .branch), none => branching expr stmt n
  | _, none => assignment expr

/-- A statement. A semicolon may follow it. -/
def statement : Nat → Reader Stmt
  | 0 => expected .expression
  | n + 1 => do
    let doc ← docs
    let s ← undelimited (expression (n + 1)) (statement n) (n + 1) doc
    let _ ← eat (.sign .semicolon)
    return s

/-- Reads items until the end of input. -/
def untilEnd {α : Type} (item : Reader α) : Nat → Reader (List α)
  | 0 => pure []
  | n + 1 => do
    match ← peek with
    | none => pure []
    | some _ =>
      let x ← item
      let xs ← untilEnd item n
      return x :: xs

end Reader

namespace CodeUnit

/-- The statements that some tokens spell. -/
def ofTokens? (tokens : List PlacedToken) : Except SyntaxError (List Stmt) :=
  let bound := tokens.length + 1
  match Reader.untilEnd (Reader.statement bound) bound ⟨.dummy, tokens⟩ with
  | .ok body _ => .ok body
  | .error e _ => .error e

/-- The unit that a source text spells, where `origin` names the storage of the text. -/
def parse (source origin : String) : Except SyntaxError CodeUnit :=
  match Token.scan source with
  | .error e => .error (.scan e)
  | .ok tokens => (ofTokens? tokens).map (⟨origin, ·⟩)

end CodeUnit

end LivePatch
