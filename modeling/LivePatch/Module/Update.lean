/-
Bringing an old value up to date with a new one. Functions, methods and classes are updated in
place, so that whoever holds the old object sees the new behaviour; any other value is replaced. A
new value can also say itself what becomes of the old one, by an attribute `__reload_update__`.
-/
import LivePatch.Machine
import LivePatch.Machine.Run
import LivePatch.Module.Journal
import LivePatch.Module.NameDiff

namespace LivePatch

/-- The name of the attribute by which a new value decides about the old one. -/
def updateHook : Name := "__reload_update__"

/-- The attributes of a class that an update neither takes away nor overwrites. -/
def preservedSlots : List Name := ["__doc__", "__dict__"]

/-- A heap together with the journal of what is being changed on it. -/
structure Journaled where
  journal : Journal
  heap : Heap

namespace Journaled

/-- Gives the function `old` the doc text, code and defaults of `new`, and puts the attributes of
`new` on top of its own. -/
def updateFunction (s : Journaled) (old new : FunctionRef) : Journaled :=
  if old = new then s else
  let incoming := (s.heap.function new).state
  ⟨s.journal.recordFunction s.heap old,
    s.heap.modifyFunction old fun state =>
      ⟨incoming.doc, state.attrs.override incoming.attrs, incoming.code, incoming.defaults⟩⟩

/-- Sets an attribute of `old` to its value in `new`. -/
def takeAttr (old new : ClassRef) (h : Heap) (x : Name) : Heap :=
  match (h.type new).attrs.get? x with
  | some v => h.modifyAttrs old (·.insert x v)
  | none => h

/-- Gives the class `old` the attributes of `new`, where at most `n` classes are nested in one
another. -/
def updateClassWithin : Nat → ClassRef → ClassRef → Journaled → Journaled
  | 0, _, _, s => s
  | n + 1, old, new, s =>
    if old = new ∨ s.journal.hasClass old = true then s else
    let journal := s.journal.recordClass s.heap old
    let diff := (NameDiff.between (s.heap.type old).attrs.names (s.heap.type new).attrs.names
      preservedSlots).withoutShared preservedSlots
    let heap := diff.added.foldl (takeAttr old new) s.heap
    let heap := diff.removed.foldl (fun h x => h.modifyAttrs old (·.erase x)) heap
    diff.shared.foldl (fun s x =>
      match (s.heap.type old).attrs.get? x, (s.heap.type new).attrs.get? x with
      | some (.type c), some (.type d) => updateClassWithin n c d s
      | some _, some v => { s with heap := s.heap.modifyAttrs old (·.insert x v) }
      | _, _ => s) ⟨journal, heap⟩

/-- Gives the class `old` the attributes of `new`: new ones are added, missing ones removed, and
shared ones overwritten, except that where both hold a class the old class is updated in turn. A class
is updated once for each journal, so that no more classes are nested in one another than there are. -/
def updateClass (s : Journaled) (old new : ClassRef) : Journaled :=
  updateClassWithin (s.heap.classes.size + 1) old new s

end Journaled

/-- How an old value was dealt with. -/
inductive Outcome where
  /-- Old and new are the same. -/
  | unchanged
  /-- The old object was updated in place. -/
  | patched
  /-- The new value decided. -/
  | hook
  /-- The new value takes the place of the old one. -/
  | rebound
  deriving DecidableEq, Repr

/-- The value that is bound after an update, and how it came about. -/
structure Update where
  value : Value
  outcome : Outcome
  deriving DecidableEq, Repr

namespace Update

/-- Updates the object behind `old` from the one behind `new`, where both are of one kind; other
values are replaced. -/
def inPlace (old new : Value) (s : Journaled) : Update × Journaled :=
  match old, new with
  | .type c, .type d => (⟨old, .patched⟩, s.updateClass c d)
  | .function f, .function g => (⟨old, .patched⟩, s.updateFunction f g)
  | .method m, .method n =>
    (⟨old, .patched⟩, s.updateFunction (s.heap.method m).function (s.heap.method n).function)
  | _, _ => (⟨new, .rebound⟩, s)

/-- The hook of a new value. A hook that a class defines is bound to the class. -/
def hook? (h : Heap) (new : Value) : Option Attribute :=
  match new, h.attr? new updateHook with
  | .type _, some (.value (.function f)) => some (.bound new f)
  | _, found => found

/-- Brings `old` up to date with `new`. Only a hook can fail. -/
def perform (call : Caller) (old new : Value) (j : Journal) : Run (Update × Journal) := do
  if old = new then return (⟨old, .unchanged⟩, j)
  else if old.kind ≠ new.kind then return (⟨new, .rebound⟩, j)
  else
    match ← Run.read (hook? · new) with
    | some found =>
      let hook ← Run.make (·.obtain found)
      let v ← call hook [old]
      return (⟨v, .hook⟩, j)
    | none =>
      Run.make fun h =>
        let (u, s) := inPlace old new ⟨j, h⟩
        ((u, s.journal), s.heap)

end Update

end LivePatch
