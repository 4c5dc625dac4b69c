/-
Frames: where running code finds names and binds them. The frame of a module binds in the module's
namespace, the frame of a function in bindings of its own, and the frame of a class body in what
becomes the attributes of the class.
-/
import LivePatch.Machine

namespace LivePatch

/-- The bindings a frame has for itself. -/
inductive Locals where
  /-- None: names are bound in the namespace. -/
  | module
  | function (bindings : Bindings Value)
  | classBody (attrs : Bindings Value)

/-- Where code runs. -/
structure Frame where
  globals : ScopeRef
  /-- The name of the module the code belongs to. -/
  module : Name
  locals : Locals

namespace Frame

/-- The value a frame itself has for a name. -/
def local? (frame : Frame) (x : Name) : Option Value :=
  match frame.locals with
  | .module => none
  | .function b | .classBody b => b.get? x

/-- The value of a name: the frame's own, then the namespace's, then the builtin function. -/
def lookup? (frame : Frame) (h : Heap) (x : Name) : Option Value :=
  match frame.local? x with
  | some v => some v
  | none =>
    match (h.scope frame.globals).get? x with
    | some v => some v
    | none => (Builtin.ofName? x).map .builtin

/-- Binds a name, and gives the frame to go on with. -/
def bind (frame : Frame) (x : Name) (v : Value) : Run Frame :=
  match frame.locals with
  | .module => do
    Run.modifyHeap (·.modifyScope frame.globals (·.insert x v))
    return frame
  | .function b => return { frame with locals := .function (b.insert x v) }
  | .classBody b => return { frame with locals := .classBody (b.insert x v) }

/-- Whether the frame belongs to a function. -/
def isFunction (frame : Frame) : Bool :=
  match frame.locals with
  | .function _ => true
  | _ => false

/-- The attributes that a class body has bound. -/
def attrs (frame : Frame) : Bindings Value :=
  match frame.locals with
  | .classBody b => b
  | _ => .empty

end Frame

end LivePatch
