/-
Reading without a bound on the tokens. The readers of this module call each other, and themselves, as often
as they like, and their loops go on until one of their laps leaves. All that is bounded is how deep calls
are nested, where every lap of a loop is one call deeper than the lap before it: a call that is too deep has
no outcome, neither a result nor a fault. So a reader that calls itself for ever has no outcome at any
depth, and one that ends has the same outcome at every depth from some depth on.
-/
import LivePatch.Proofs.Syntax.Statement

namespace LivePatch

/-- What a reader comes to, if its calls are not nested too deep: a result or a fault, with the cursor where
it stopped. -/
abbrev Attempt (α : Type) : Type := ExceptT SyntaxError (StateT Cursor Option) α

/-- What a reader comes to. -/
def Reader.outcome {α : Type} (r : Reader α) (c : Cursor) : Except SyntaxError α × Cursor :=
  match r c with
  | .ok a c => (.ok a, c)
  | .error e c => (.error e, c)

namespace Attempt

def ofReader {α : Type} (r : Reader α) : Attempt α := fun c => some (r.outcome c)

instance : MonadLift Reader Attempt := ⟨ofReader⟩

def tooDeep {α : Type} : Attempt α := fun _ => none

end Attempt

open Reader (peek last expected advance at? eat expect expectAs ident docs)

/-! ## Laps

A lap is the same for every kind of reader that it is made of. -/

/-- One lap of a loop goes on with what it has come to, or leaves the loop with a result. -/
inductive Lap (α β : Type) where
  | again (a : α)
  | leave (b : β)

namespace Lap

variable {m : Type → Type} [Monad m] [MonadLiftT Reader m] {α β : Type}

/-- The loop goes on as `go` from what the lap has come to, unless the lap has left it. -/
def next (go : α → m β) : Lap α β → m β
  | again a => go a
  | leave b => pure b

/-- An operator with its right operand. -/
def operator (op? : Token → Option BinaryOp) (operand : m Expr) (left : Expr) : m (Lap Expr Expr) := do
  match (← peek).bind op? with
  | none => return leave left
  | some op =>
    advance
    let right ← operand
    return again (.join op left right)

/-- A call, where `args` reads through the closing bracket, or an attribute. -/
def trailer (args : m (List Expr)) (e : Expr) : m (Lap Expr Expr) := do
  if ← eat (.sign .leftParen) then
    let es ← args
    let close ← last
    return again (.call e es (e.span.merge close))
  else if ← eat (.sign .dot) then
    let (x, s) ← ident .attributeName
    return again (.attr e x (e.span.merge s))
  else return leave e

/-- An item with the comma behind it, unless the token `stop` comes next. -/
def separated (stop : Token) (item : List α → m α) (as : List α) : m (Lap (List α) (List α)) := do
  if ← at? stop then return leave as else
  let a ← item as
  if ← eat (.sign .comma) then return again (as ++ [a]) else return leave (as ++ [a])

/-- An item, unless the token `stop` comes next or the end of input. -/
def untilSign (stop : Token) (item : m α) (as : List α) : m (Lap (List α) (List α)) := do
  match ← peek with
  | none => return leave as
  | some t =>
    if t = stop then return leave as else
    let a ← item
    return again (as ++ [a])

/-- An item, unless the end of input comes next. -/
def untilEnd (item : m α) (as : List α) : m (Lap (List α) (List α)) := do
  match ← peek with
  | none => return leave as
  | some _ =>
    let a ← item
    return again (as ++ [a])

end Lap

namespace Attempt

/-! ## Expressions -/

mutual

/-- An expression of a level, from the loosest to the tightest. -/
def level : Nat → Nat → Attempt Expr
  | 0, _ => tooDeep
  | d + 1, ℓ => do
    match ℓ with
    | 1 | 2 | 5 | 6 =>
      let left ← level d (ℓ + 1)
      operators d ℓ left
    | 3 =>
      if ← at? (.keyword .not) then
        let start ← expect (.keyword .not)
        let e ← level d 3
        return .lead .not start e
      else level d 4
    | 4 =>
      let left ← level d 5
      match (← peek).bind BinaryOp.ofComparison? with
      | none => pure left
      | some op =>
        advance
        let right ← level d 5
        return .join op left right
    | 7 =>
      if ← at? (.sign .minus) then
        let start ← expect (.sign .minus)
        let e ← level d 7
        return .lead .neg start e
      else level d 8
    | 8 =>
      let e ← primary d
      trailers d e
    | _ => expected .expression

/-- The loop over the operators of a level. -/
def operators : Nat → Nat → Expr → Attempt Expr
  | 0, _, _ => tooDeep
  | d + 1, ℓ, left => do
    let lap ← Lap.operator (BinaryOp.atLevel? ℓ) (level d (ℓ + 1)) left
    lap.next (operators d ℓ)

/-- An expression in brackets, or one that is a single token. -/
def primary : Nat → Attempt Expr
  | 0 => tooDeep
  | d + 1 => do
    if ← at? (.sign .leftParen) then
      let start ← expect (.sign .leftParen)
      let inner ← level d 1
      let close ← expect (.sign .rightParen)
      return inner.withSpan (start.merge close)
    else Reader.primary (expected .expression)

/-- The loop over calls and attributes. -/
def trailers : Nat → Expr → Attempt Expr
  | 0, _ => tooDeep
  | d + 1, e => do
    let lap ← Lap.trailer (arguments d) e
    lap.next (trailers d)

/-- The arguments of a call, behind its opening bracket and through the closing one. -/
def arguments : Nat → Attempt (List Expr)
  | 0 => tooDeep
  | d + 1 => do
    let args ← argumentsFrom d []
    let _ ← expect (.sign .rightParen)
    return args

/-- The loop over the arguments of a call, or the bases of a class. -/
def argumentsFrom : Nat → List Expr → Attempt (List Expr)
  | 0, _ => tooDeep
  | d + 1, es => do
    let lap ← Lap.separated (.sign .rightParen) (fun _ => level d 1) es
    lap.next (argumentsFrom d)

end

theorem operators_succ (d ℓ : Nat) (left : Expr) :
    operators (d + 1) ℓ left =
      Lap.operator (BinaryOp.atLevel? ℓ) (level d (ℓ + 1)) left >>= Lap.next (operators d ℓ) := rfl

theorem trailers_succ (d : Nat) (e : Expr) :
    trailers (d + 1) e = Lap.trailer (arguments d) e >>= Lap.next (trailers d) := rfl

theorem argumentsFrom_succ (d : Nat) (es : List Expr) :
    argumentsFrom (d + 1) es =
      Lap.separated (.sign .rightParen) (fun _ => level d 1) es >>= Lap.next (argumentsFrom d) := rfl

/-! ## Parameters and single statements -/

def param (d : Nat) (ps : List Param) : Attempt Param := do
  let (x, s) ← ident .parameterName
  if ← eat (.sign .equal) then
    let e ← level d 1
    return ⟨x, some e⟩
  else if ps.any (·.default.isSome) then throw (.defaultOrder x s)
  else return ⟨x, none⟩

/-- The loop over the parameters of a function. -/
def params : Nat → List Param → Attempt (List Param)
  | 0, _ => tooDeep
  | d + 1, ps => do
    let lap ← Lap.separated (.sign .rightParen) (param d) ps
    lap.next (params d)

theorem params_succ (d : Nat) (ps : List Param) :
    params (d + 1) ps = Lap.separated (.sign .rightParen) (param d) ps >>= Lap.next (params d) := rfl

def binding (d : Nat) : Attempt Stmt := do
  let start ← expect (.keyword .bind)
  let (x, _) ← ident .bindingName
  let _ ← expect (.sign .equal)
  let value ← level d 1
  return .bind x value (start.merge value.span)

def leaving (d : Nat) : Attempt Stmt := do
  let start ← expect (.keyword .leave)
  match ← peek with
  | none | some (.sign .rightBrace) | some (.sign .semicolon) => return .leave none start
  | some _ =>
    let value ← level d 1
    return .leave (some value) (start.merge value.span)

def raising (d : Nat) : Attempt Stmt := do
  let start ← expect (.keyword .raise)
  let value ← level d 1
  return .raise value (start.merge value.span)

def assignment (d : Nat) : Attempt Stmt := do
  let target ← level d 1
  if ← eat (.sign .equal) then
    if target.isTarget then
      let value ← level d 1
      return .assign target value (target.span.merge value.span)
    else throw (.assignTarget target.span)
  else return .expr target

def bases (d : Nat) : Attempt (List Expr) := do
  if ← eat (.sign .leftParen) then arguments d else return []

/-! ## Statements -/

mutual

def block : Nat → Attempt (List Stmt)
  | 0 => tooDeep
  | d + 1 => do
    let _ ← expect (.sign .leftBrace)
    let body ← statements d []
    let _ ← expect (.sign .rightBrace)
    return body

/-- The loop over the statements of a block. -/
def statements : Nat → List Stmt → Attempt (List Stmt)
  | 0, _ => tooDeep
  | d + 1, ss => do
    let lap ← Lap.untilSign (.sign .rightBrace) (statement d) ss
    lap.next (statements d)

def bodyOf : Nat → Attempt (List Stmt)
  | 0 => tooDeep
  | d + 1 => do
    if ← eat (.sign .equal) then
      let value ← level d 1
      return [.leave (some value) value.span]
    else block d

def function : Nat → Option String → Attempt Stmt
  | 0, _ => tooDeep
  | d + 1, doc => do
    let start ← expect (.keyword .function)
    let (x, _) ← ident .functionName
    let _ ← expect (.sign .leftParen)
    let ps ← params d []
    let _ ← expect (.sign .rightParen)
    let body ← bodyOf d
    let stop ← last
    return .function x ps body doc (start.merge stop)

def otherwise : Nat → Attempt (List Stmt)
  | 0 => tooDeep
  | d + 1 => do
    if ← eat (.keyword .otherwise) then
      if ← at? (.keyword .branch) then
        let other ← branching d
        return [other]
      else block d
    else return []

def branching : Nat → Attempt Stmt
  | 0 => tooDeep
  | d + 1 => do
    let start ← expect (.keyword .branch)
    let cond ← level d 1
    let whenTrue ← block d
    let whenFalse ← otherwise d
    let stop ← last
    return .branch cond whenTrue whenFalse (start.merge stop)

def classDef : Nat → Option String → Attempt Stmt
  | 0, _ => tooDeep
  | d + 1, doc => do
    let start ← expect (.keyword .classDef)
    let (x, _) ← ident .className
    let es ← bases d
    let _ ← expect (.sign .leftBrace)
    let body ← classItems d []
    let _ ← expectAs (.sign .rightBrace) .classItem
    let stop ← last
    return .classDef x es body doc (start.merge stop)

/-- The loop over the items of a class body. -/
def classItems : Nat → List Stmt → Attempt (List Stmt)
  | 0, _ => tooDeep
  | d + 1, ss => do
    let lap ← Lap.untilSign (.sign .rightBrace) (classItem d) ss
    lap.next (classItems d)

def classItem : Nat → Attempt Stmt
  | 0 => tooDeep
  | d + 1 => do
    let doc ← docs
    let s ←
      match ← peek, doc with
      | some (.keyword .function), _ => function d doc
      | some (.keyword .classDef), _ => classDef d doc
      | some (.keyword .bind), none => binding d
      | _, _ => expected .classItem
    let _ ← eat (.sign .semicolon)
    return s

def undelimited : Nat → Option String → Attempt Stmt
  | 0, _ => tooDeep
  | d + 1, doc => do
    match ← peek, doc with
    | some (.keyword .function), _ => function d doc
    | some (.keyword .classDef), _ => classDef d doc
    | _, some _ => expected .documented
    | some (.keyword .bind), none => binding d
    | some (.keyword .leave), none => leaving d
    | some (.keyword .raise), none => raising d
    | some (.keyword .branch), none => branching d
    | _, none => assignment d

def statement : Nat → Attempt Stmt
  | 0 => tooDeep
  | d + 1 => do
    let doc ← docs
    let s ← undelimited d doc
    let _ ← eat (.sign .semicolon)
    return s

end

theorem statements_succ (d : Nat) (ss : List Stmt) :
    statements (d + 1) ss =
      Lap.untilSign (.sign .rightBrace) (statement d) ss >>= Lap.next (statements d) := rfl

theorem classItems_succ (d : Nat) (ss : List Stmt) :
    classItems (d + 1) ss =
      Lap.untilSign (.sign .rightBrace) (classItem d) ss >>= Lap.next (classItems d) := rfl

/-! ## Units -/

/-- The loop over the statements of a unit. -/
def unit : Nat → List Stmt → Attempt (List Stmt)
  | 0, _ => tooDeep
  | d + 1, ss => do
    let lap ← Lap.untilEnd (statement d) ss
    lap.next (unit d)

theorem unit_succ (d : Nat) (ss : List Stmt) :
    unit (d + 1) ss = Lap.untilEnd (statement d) ss >>= Lap.next (unit d) := rfl

end Attempt

end LivePatch
