/-
The journal of a change: what the namespace of a module and the objects changed with it were before.
Each object is recorded once, before its first change, so that going back through the records from
the latest to the first undoes the change.
-/
import LivePatch.Heap

namespace LivePatch

namespace Journal

/-- The state of an object before it was changed. -/
inductive Record where
  | function (f : FunctionRef) (state : FunctionState)
  | type (c : ClassRef) (attrs : Bindings Value)

/-- Puts an object back into its recorded state. -/
def Record.restore (h : Heap) : Record → Heap
  | function f state => h.modifyFunction f fun _ => state
  | type c attrs => h.modifyAttrs c fun _ => attrs

/-- Whether a record is of the function. -/
def Record.isOfFunction (f : FunctionRef) : Record → Bool
  | function g _ => g = f
  | type .. => false

/-- Whether a record is of the class. -/
def Record.isOfClass (c : ClassRef) : Record → Bool
  | function .. => false
  | type d _ => d = c

end Journal

/-- The journal of a change to a namespace. -/
structure Journal where
  scope : ScopeRef
  /-- The bindings of the namespace at the beginning. -/
  bindings : Bindings Value
  /-- The objects recorded, the latest first. -/
  records : List Journal.Record

namespace Journal

/-- Begins a journal of changes to a namespace. -/
def start (h : Heap) (scope : ScopeRef) : Journal := ⟨scope, h.scope scope, []⟩

/-- Whether the state of a function is recorded. -/
def hasFunction (j : Journal) (f : FunctionRef) : Bool := j.records.any (·.isOfFunction f)

/-- Whether the attributes of a class are recorded. -/
def hasClass (j : Journal) (c : ClassRef) : Bool := j.records.any (·.isOfClass c)

/-- Records a function unless it is recorded already. -/
def recordFunction (j : Journal) (h : Heap) (f : FunctionRef) : Journal :=
  if j.hasFunction f then j
  else { j with records := .function f (h.function f).state :: j.records }

/-- Records a class unless it is recorded already. -/
def recordClass (j : Journal) (h : Heap) (c : ClassRef) : Journal :=
  if j.hasClass c then j else { j with records := .type c (h.type c).attrs :: j.records }

/-- Undoes the change: every recorded object gets its recorded state back, and then the namespace its
bindings. -/
def rollback (j : Journal) (h : Heap) : Heap :=
  (j.records.foldl Record.restore h).modifyScope j.scope fun _ => j.bindings

end Journal

end LivePatch
