/-
Running expressions and statements. What a call does is left open here: it is a parameter, so that
running follows the syntax tree and nothing else.
-/
import LivePatch.Machine.Builtin
import LivePatch.Machine.Frame
import LivePatch.Machine.Operator

namespace LivePatch

/-- A way to call values. -/
abbrev Caller := Value → List Value → Run Value

/-- How a statement ends: with the frame for the next one, or with the value that the function
returns. -/
inductive Flow where
  | next (frame : Frame)
  | leave (value : Value)

namespace Run

def operate (f : Heap → Except RunError Value) : Run Value := do
  match ← read f with
  | .ok v => return v
  | .error e => fail e

def valueOfName (frame : Frame) (x : Name) : Run Value := do
  match ← read (frame.lookup? · x) with
  | some v => return v
  | none => fail (.undefinedVariable x)

end Run

mutual

/-- The value of an expression. -/
def Expr.eval (call : Caller) (frame : Frame) : Expr → Run Value
  | .int n _ => return .int n
  | .str text _ => return .str text
  | .bool b _ => return .bool b
  | .none _ => return .none
  | .ident x _ => Run.valueOfName frame x
  | .attr object x _ => do
    let v ← object.eval call frame
    Run.getAttr v x
  | .call callee args _ => do
    let f ← callee.eval call frame
    let vs ← Expr.evalAll call frame args
    call f vs
  | .binary op left right _ => do
    let v ← left.eval call frame
    match op with
    | .and => if v.isTruthy then right.eval call frame else return v
    | .or => if v.isTruthy then return v else right.eval call frame
    | op =>
      let w ← right.eval call frame
      Run.operate (Operator.binary op v w)
  | .unary op operand _ => do
    let v ← operand.eval call frame
    Run.operate (Operator.unary op v)

/-- The values of some expressions, from left to right. -/
def Expr.evalAll (call : Caller) (frame : Frame) : List Expr → Run (List Value)
  | [] => return []
  | e :: es => do
    let v ← e.eval call frame
    let vs ← Expr.evalAll call frame es
    return v :: vs

end

namespace Run

/-- The classes that some values are; every base of a class `name` has to be one. -/
def basesOf (call : Caller) (frame : Frame) (name : Name) : List Expr → Run (List ClassRef)
  | [] => return []
  | e :: es => do
    match ← e.eval call frame with
    | .type c =>
      let cs ← basesOf call frame name es
      return c :: cs
    | v => fail (.invalidBase name (← read (·.typeName v)))

/-- Makes a function. Its defaults are evaluated here and now. -/
def defineFunction (call : Caller) (frame : Frame) (name : Name) (params : List Param)
    (body : List Stmt) (doc : Option String) : Run FunctionRef := do
  let defaults ← Expr.evalAll call frame (params.filterMap (·.default))
  let state : FunctionState := ⟨doc, .empty, ⟨params.map (·.name), body⟩, defaults⟩
  make (·.newFunction ⟨name, frame.module, frame.globals, state⟩)

/-- The attributes that a class body starts with. -/
def initialAttrs (module : Name) (doc : Option String) : Bindings Value :=
  (Bindings.empty.insert "__module__" (.str module)).insert "__doc__"
    ((doc.map Value.str).getD .none)

/-- Assigns a value. A target that is neither a name nor an attribute takes no notice. -/
def assign (call : Caller) (frame : Frame) (v : Value) : Expr → Run Frame
  | .ident x _ => frame.bind x v
  | .attr object x _ => do
    let o ← object.eval call frame
    setAttr o x v
    return frame
  | _ => return frame

end Run

mutual

def Stmt.run (call : Caller) (frame : Frame) : Stmt → Run Flow
  | .bind x value _ => do
    let v ← value.eval call frame
    return .next (← frame.bind x v)
  | .assign target value _ => do
    let v ← value.eval call frame
    return .next (← Run.assign call frame v target)
  | .function x params body doc _ => do
    let f ← Run.defineFunction call frame x params body doc
    return .next (← frame.bind x (.function f))
  | .classDef x bases body doc _ => do
    let cs ← Run.basesOf call frame x bases
    let inner := { frame with locals := .classBody (Run.initialAttrs frame.module doc) }
    match ← Stmt.runAll call inner body with
    | .leave _ => Run.fail .returnOutsideFunction
    | .next last =>
      let c ← Run.make (·.newClass ⟨x, cs, last.attrs⟩)
      return .next (← frame.bind x (.type c))
  | .leave value _ =>
    if frame.isFunction then
      match value with
      | some e => do return .leave (← e.eval call frame)
      | none => return .leave .none
    else Run.fail .returnOutsideFunction
  | .raise value _ => do
    let v ← value.eval call frame
    Run.fail (.raised (← Run.read (·.display v)))
  | .branch cond whenTrue whenFalse _ => do
    let v ← cond.eval call frame
    if v.isTruthy then Stmt.runAll call frame whenTrue else Stmt.runAll call frame whenFalse
  | .expr value => do
    let _ ← value.eval call frame
    return .next frame

/-- Runs some statements in order, until one returns. -/
def Stmt.runAll (call : Caller) (frame : Frame) : List Stmt → Run Flow
  | [] => return .next frame
  | s :: ss => do
    match ← s.run call frame with
    | .next frame => Stmt.runAll call frame ss
    | .leave v => return .leave v

end

end LivePatch
