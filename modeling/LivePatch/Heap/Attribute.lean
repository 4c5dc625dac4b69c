/-
Attributes of values. An instance has its fields and what its class has, functions coming back bound
to it; a class has its name and what it and its bases define; a function has its name, module, doc
text and what was set on it; a method has its parts and what its function has.
-/
import LivePatch.Heap.Hierarchy

namespace LivePatch

/-- An attribute that was found. -/
inductive Attribute where
  | value (v : Value)
  /-- A function found through the class of an instance, to be bound to the instance. -/
  | bound (receiver : Value) (function : FunctionRef)
  deriving DecidableEq, Repr

namespace Heap

def functionAttr? (h : Heap) (f : FunctionRef) (x : Name) : Option Value :=
  let o := h.function f
  if x = "__name__" then some (.str o.name)
  else if x = "__module__" then some (.str o.module)
  else if x = "__doc__" then some ((o.state.doc.map Value.str).getD .none)
  else o.state.attrs.get? x

/-- The attribute of a value, if it has it. -/
def attr? (h : Heap) (v : Value) (x : Name) : Option Attribute :=
  match v with
  | .object o =>
    match (h.object o).fields.get? x with
    | some w => some (.value w)
    | none =>
      (h.lookup (h.object o).type x).map fun
        | .function f => .bound v f
        | w => .value w
  | .type c =>
    if x = "__name__" then some (.value (.str (h.type c).name))
    else (h.lookup c x).map .value
  | .function f => (h.functionAttr? f x).map .value
  | .method m =>
    if x = "__func__" then some (.value (.function (h.method m).function))
    else if x = "__self__" then some (.value (h.method m).receiver)
    else (h.functionAttr? (h.method m).function x).map .value
  | .none | .bool _ | .int _ | .str _ | .builtin _ => none

/-- The value of an attribute; binding a function makes a new method. -/
def obtain (h : Heap) : Attribute → Value × Heap
  | .value v => (v, h)
  | .bound receiver f =>
    let (m, h) := h.newMethod ⟨receiver, f⟩
    (.method m, h)

/-- The doc text that a value gives: only text is one. -/
def docOf : Value → Option String
  | .str text => some text
  | _ => none

/-- The heap with an attribute of a value set; none if the value takes no attributes. -/
def setAttr? (h : Heap) (target : Value) (x : Name) (v : Value) : Option Heap :=
  match target with
  | .object o => some (h.modifyFields o (·.insert x v))
  | .type c => some (h.modifyAttrs c (·.insert x v))
  | .function f =>
    if x = "__doc__" then some (h.modifyFunction f fun s => { s with doc := docOf v })
    else some (h.modifyFunction f fun s => { s with attrs := s.attrs.insert x v })
  | .none | .bool _ | .int _ | .str _ | .builtin _ | .method _ => none

end Heap

end LivePatch
