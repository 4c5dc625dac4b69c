/-
The heap: every object of a running program, each with the part of its state that can change.
-/
import LivePatch.Bindings
import LivePatch.Files.Path
import LivePatch.Heap.Arena
import LivePatch.Syntax

namespace LivePatch

/-- What a function runs: the names of its parameters, and its body. -/
structure FunctionCode where
  params : List Name
  body : List Stmt
  deriving Inhabited

/-- The part of a function that new code replaces. -/
structure FunctionState where
  doc : Option String
  /-- Attributes set on the function. -/
  attrs : Bindings Value
  code : FunctionCode
  /-- The values of the last parameters when no argument gives them. -/
  defaults : List Value
  deriving Inhabited

structure FunctionObject where
  name : Name
  /-- The name of the module that defined the function. -/
  module : Name
  /-- Where the body finds the names that are not its own. -/
  globals : ScopeRef
  state : FunctionState
  deriving Inhabited

/-- A function bound to a receiver, which becomes its first argument. -/
structure MethodObject where
  receiver : Value
  function : FunctionRef
  deriving Inhabited

structure ClassObject where
  name : Name
  bases : List ClassRef
  attrs : Bindings Value
  deriving Inhabited

structure InstanceObject where
  type : ClassRef
  fields : Bindings Value
  deriving Inhabited

/-- A module: the handle of one loaded unit. -/
structure ModuleObject where
  name : Name
  scope : ScopeRef
  /-- Where nested units are searched for; a module that has such places is a package. -/
  searchPath : Option (List Path)
  /-- The storage that the module was last loaded from. -/
  origin : Option Path
  deriving Inhabited

/-- The name under which a module knows its own name. -/
def selfName : Name := "__name__"

structure Heap where
  scopes : Arena .scope (Bindings Value)
  functions : Arena .function FunctionObject
  methods : Arena .method MethodObject
  classes : Arena .type ClassObject
  instances : Arena .object InstanceObject
  modules : Arena .module ModuleObject
  deriving Inhabited

namespace Heap

def empty : Heap := default

/-! ## Reading -/

def scope (h : Heap) (r : ScopeRef) : Bindings Value := h.scopes.get r

def function (h : Heap) (r : FunctionRef) : FunctionObject := h.functions.get r

def method (h : Heap) (r : MethodRef) : MethodObject := h.methods.get r

def type (h : Heap) (r : ClassRef) : ClassObject := h.classes.get r

def object (h : Heap) (r : InstanceRef) : InstanceObject := h.instances.get r

def module (h : Heap) (r : ModuleRef) : ModuleObject := h.modules.get r

/-! ## Making objects -/

def newScope (h : Heap) : ScopeRef × Heap :=
  (h.scopes.next, { h with scopes := h.scopes.push .empty })

def newFunction (h : Heap) (f : FunctionObject) : FunctionRef × Heap :=
  (h.functions.next, { h with functions := h.functions.push f })

/-- Binds a function to a receiver. -/
def newMethod (h : Heap) (m : MethodObject) : MethodRef × Heap :=
  (h.methods.next, { h with methods := h.methods.push m })

def newClass (h : Heap) (c : ClassObject) : ClassRef × Heap :=
  (h.classes.next, { h with classes := h.classes.push c })

def newInstance (h : Heap) (c : ClassRef) : InstanceRef × Heap :=
  (h.instances.next, { h with instances := h.instances.push ⟨c, .empty⟩ })

/-- Makes a module, with a namespace of its own in which its name is bound. -/
def newModule (h : Heap) (name : Name) (searchPath : Option (List Path)) : ModuleRef × Heap :=
  let bindings := Bindings.empty.insert selfName (.str name)
  (h.modules.next,
    { h with
      scopes := h.scopes.push bindings
      modules := h.modules.push ⟨name, h.scopes.next, searchPath, none⟩ })

/-! ## Changing objects -/

def modifyScope (h : Heap) (r : ScopeRef) (f : Bindings Value → Bindings Value) : Heap :=
  { h with scopes := h.scopes.modify r f }

/-- Changes the state of a function. -/
def modifyFunction (h : Heap) (r : FunctionRef) (f : FunctionState → FunctionState) : Heap :=
  { h with functions := h.functions.modify r fun o => { o with state := f o.state } }

def modifyAttrs (h : Heap) (r : ClassRef) (f : Bindings Value → Bindings Value) : Heap :=
  { h with classes := h.classes.modify r fun o => { o with attrs := f o.attrs } }

def modifyFields (h : Heap) (r : InstanceRef) (f : Bindings Value → Bindings Value) : Heap :=
  { h with instances := h.instances.modify r fun o => { o with fields := f o.fields } }

/-- Records the storage that a module was loaded from. -/
def setOrigin (h : Heap) (r : ModuleRef) (origin : Path) : Heap :=
  { h with modules := h.modules.modify r fun o => { o with origin := some origin } }

end Heap

end LivePatch
