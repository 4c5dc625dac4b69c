/-
The machine that code runs on: the heap, and the number of calls being run. A run ends with a value
or with a failure, and either way leaves the machine in some state; a run that would go on for ever
is told apart from both.
-/
import LivePatch.Machine.RunError
import LivePatch.Heap.Attribute
import LivePatch.Heap.Describe

namespace LivePatch

/-- The state of a running program. -/
structure Machine where
  heap : Heap
  /-- The number of function bodies being run. -/
  depth : Nat
  deriving Inhabited

/-- Why a run has no value. -/
inductive Halt (ε : Type) where
  | failure (e : ε)
  /-- The run has no end. -/
  | divergence
  deriving DecidableEq, Repr

namespace Halt

/-- The same stop with its error put into other words. -/
def map {ε δ : Type} (f : ε → δ) : Halt ε → Halt δ
  | failure e => failure (f e)
  | divergence => divergence

end Halt

/-- A run on a machine. -/
abbrev Run := EStateM (Halt RunError) Machine

namespace Run

def fail {α : Type} (e : RunError) : Run α := throw (.failure e)

def read {α : Type} (f : Heap → α) : Run α := fun m => .ok (f m.heap) m

def modifyHeap (f : Heap → Heap) : Run Unit := fun m => .ok () { m with heap := f m.heap }

/-- Makes an object. -/
def make {α : Type} (f : Heap → α × Heap) : Run α := fun m =>
  match f m.heap with
  | (a, heap) => .ok a { m with heap }

/-- The number of calls being run. -/
def depth : Run Nat := fun m => .ok m.depth m

/-- Runs a part one call deeper. The depth is what it was before however the part ends. -/
def deeper {α : Type} (part : Run α) : Run α := fun m =>
  match part { m with depth := m.depth + 1 } with
  | .ok a m => .ok a { m with depth := m.depth - 1 }
  | .error e m => .error e { m with depth := m.depth - 1 }

/-- The attribute of a value, which has to have it. -/
def getAttr (v : Value) (x : Name) : Run Value := do
  match ← read (·.attr? v x) with
  | some found => make (·.obtain found)
  | none => fail (.noAttribute (← read (·.typeName v)) x)

/-- Sets an attribute of a value, which has to take attributes. -/
def setAttr (target : Value) (x : Name) (v : Value) : Run Unit := fun m =>
  match m.heap.setAttr? target x v with
  | some heap => .ok () { m with heap }
  | none => .error (.failure (.cannotSetAttribute (m.heap.typeName target) x)) m

end Run

end LivePatch
