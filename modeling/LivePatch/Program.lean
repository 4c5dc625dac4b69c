/-
A running program: its machine, the modules it has loaded, and where it finds others. Importing a
module loads its packages first and runs each unit once; reloading a module merges its present storage
into it.
-/
import LivePatch.Storage.Load
import LivePatch.Module.Merge

namespace LivePatch

/-- What a host does with a module whose storage cannot be loaded any more. It is told where the
storage is and of which kind, has the machine at its disposal, and gives the module to go on with. -/
structure Fallback where
  reload : ModuleRef → Path → StorageKind → EStateM (Halt ModuleError) Machine ModuleRef

/-- The module stays as it is. -/
def Fallback.keep : Fallback := ⟨fun m _ _ => return m⟩

/-- A module that was left to the fallback, with the storage it was found at. -/
structure Delegation where
  module : Name
  location : Path
  kind : StorageKind
  deriving DecidableEq, Repr

structure Program where
  machine : Machine
  /-- The loaded modules by their names. -/
  modules : Bindings ModuleRef
  /-- Where modules that lie in no package are searched for. -/
  roots : List Path
  limit : Nat
  fallback : Fallback
  /-- The modules left to the fallback, the latest first. -/
  delegations : List Delegation

/-- The limit on the call depth unless another is given. -/
def defaultLimit : Nat := 1000

/-- A run that loads modules into a program. -/
abbrev InProgram := EStateM (Halt ModuleError) Program

namespace Program

def start (roots : List Path) (limit : Nat) (fallback : Fallback) : Program :=
  ⟨⟨.empty, 0⟩, .empty, roots, limit, fallback, []⟩

/-- Runs on the machine of the program, with errors put into other words. -/
def onMachine {ε α : Type} (reword : ε → ModuleError) (run : EStateM (Halt ε) Machine α) :
    InProgram α := fun p =>
  match run p.machine with
  | .ok a machine => .ok a { p with machine }
  | .error e machine => .error (e.map reword) { p with machine }

/-- Makes or changes objects. -/
def onHeap {α : Type} (f : Heap → α × Heap) : InProgram α := fun p =>
  match f p.machine.heap with
  | (a, heap) => .ok a { p with machine := { p.machine with heap } }

def fail {α : Type} (e : ModuleError) : InProgram α := throw (.failure e)

/-- The result, or else the error. -/
def orFail {α : Type} : Except ModuleError α → InProgram α
  | .ok a => return a
  | .error e => fail e

/-- Enters a module under its name. -/
def register (m : ModuleRef) : InProgram Unit := fun p =>
  .ok () { p with modules := p.modules.insert (p.machine.heap.module m).name m }

/-- Where a module is searched for: in the roots, or in the places of the package it lies in. -/
def searchPlaces (p : Program) (module : Name) (parent : Option Name) :
    Except ModuleError (List Path) :=
  match parent with
  | none => .ok p.roots
  | some package =>
    match p.modules.get? package with
    | none => .error (.unknownPackage module package)
    | some m =>
      match (p.machine.heap.module m).searchPath with
      | none => .error (.notPackage module package)
      | some places => .ok places

/-! ## Importing -/

/-- Runs a unit in a new module, and enters the module when the unit has run to its end. -/
def enter (name : Name) (loaded : ReadUnit) : InProgram ModuleRef := do
  let m ← onHeap (·.newModule name (loaded.packageDir.map ([·])))
  let p ← get
  onMachine (.execution name)
    (CodeUnit.run p.limit loaded.unit (p.machine.heap.module m).scope name)
  onHeap fun h => ((), h.setOrigin m loaded.location)
  register m
  return m

/-- Loads a module that is not loaded yet and lies in `parent`. -/
def loadNew (find : Finder) (name : Name) (parent : Option Name) : InProgram ModuleRef := do
  let places ← orFail ((← get).searchPlaces name parent)
  match ← orFail (load find name.split.2 places none) with
  | .unsupported _ kind => fail (.unsupportedKind name kind)
  | .unit loaded => enter name loaded

/-- Imports a module that lies in packages, the innermost first. -/
def importWithin (find : Finder) (name : Name) : List Name → InProgram ModuleRef
  | [] => do
    match (← get).modules.get? name with
    | some m => return m
    | none => loadNew find name none
  | parent :: parents => do
    match (← get).modules.get? name with
    | some m => return m
    | none =>
      let _ ← importWithin find parent parents
      loadNew find name (some parent)

/-- Gives the module of a name, loading it and the packages it lies in if need be. -/
def importModule (find : Finder) (name : Name) : InProgram ModuleRef :=
  importWithin find name name.parents

/-! ## Reloading -/

/-- Leaves a module to the fallback. -/
def delegate (m : ModuleRef) (d : Delegation) : InProgram ModuleRef := fun p =>
  onMachine id (p.fallback.reload m d.location d.kind) { p with delegations := d :: p.delegations }

/-- Brings a module up to date with its present storage, and gives the module with a summary of what
was done to it. When the module is left to the fallback, there is no summary, and the module is what
the fallback gives. -/
def reload (find : Finder) (m : ModuleRef) : InProgram (ModuleRef × Option Summary) := do
  let p ← get
  let o := p.machine.heap.module m
  let places ← orFail (p.searchPlaces o.name o.name.split.1)
  match ← orFail (load find o.name.split.2 places o.searchPath) with
  | .unsupported location kind =>
    let other ← delegate m ⟨o.name, location, kind⟩
    return (other, none)
  | .unit loaded =>
    let s ← onMachine id (merge p.limit loaded.unit m)
    onHeap fun h => ((), h.setOrigin m loaded.location)
    return (m, some s)

/-- A reload without its summary. -/
def reloadModule (find : Finder) (m : ModuleRef) : InProgram ModuleRef := do
  let (m, _) ← reload find m
  return m

/-! ## For the reader of a message -/

/-- The program with its roots and the names of its modules in order. -/
def describe (p : Program) : String :=
  let names := p.modules.names.mergeSort fun x y => !decide (y < x)
  "ReloadContext \x7b roots: " ++ Text.bracketed (p.roots.map Text.quoted) ++
    ", modules: " ++ Text.bracketed (names.map Text.quoted) ++ ", .. \x7d"

end Program

end LivePatch
