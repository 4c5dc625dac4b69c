/-
Merging a unit into a live module. The unit runs in a namespace of its own; only when it has run to
its end is the module changed, name by name, and when a name cannot be updated the change is undone.
-/
import LivePatch.Machine.Call
import LivePatch.Module.ModuleError
import LivePatch.Module.Update

namespace LivePatch

/-- What a merge did to the names of a module. -/
structure Summary where
  added : List Name
  removed : List Name
  /-- Names whose object was updated in place, or chosen by a hook. -/
  patched : List Name
  /-- Names bound to the new object. -/
  rebound : List Name
  deriving DecidableEq, Repr

namespace Summary

/-- Nothing was done. -/
def none : Summary := ⟨[], [], [], []⟩

/-- Whether nothing was done. -/
def isEmpty (s : Summary) : Bool :=
  s.added.isEmpty && s.removed.isEmpty && s.patched.isEmpty && s.rebound.isEmpty

/-- The numbers of names of each sort. -/
def render (s : Summary) : String :=
  toString s.added.length ++ " added, " ++ toString s.removed.length ++ " removed, " ++
    toString s.patched.length ++ " patched, " ++ toString s.rebound.length ++ " rebound"

/-- Enters a shared name with how it was dealt with. -/
def note (s : Summary) (x : Name) : Outcome → Summary
  | .unchanged => s
  | .patched | .hook => { s with patched := s.patched ++ [x] }
  | .rebound => { s with rebound := s.rebound ++ [x] }

end Summary

/-- A run that changes a module. -/
abbrev Merging := EStateM (Halt ModuleError) Machine

namespace Merge

/-- Binds the names that are new. -/
def addNames (scratch live : ScopeRef) (names : List Name) (h : Heap) : Heap :=
  names.foldl (fun h x =>
    match (h.scope scratch).get? x with
    | some v => h.modifyScope live (·.insert x v)
    | none => h) h

/-- Unbinds the names that are gone. -/
def removeNames (live : ScopeRef) (names : List Name) (h : Heap) : Heap :=
  names.foldl (fun h x => h.modifyScope live (·.erase x)) h

/-- How the shared names came out: all of them updated, or stopped at one, in both cases with the
journal of what was changed. -/
structure Shared where
  result : Except (Halt ModuleError) Summary
  journal : Journal
  machine : Machine

/-- Updates the names that old and new share, one after the other. -/
def updateNames (call : Caller) (scratch live : ScopeRef) :
    List Name → Summary → Journal → Machine → Shared
  | [], s, j, m => ⟨.ok s, j, m⟩
  | x :: xs, s, j, m =>
    match (m.heap.scope live).get? x, (m.heap.scope scratch).get? x with
    | some old, some new =>
      match Update.perform call old new j m with
      | .ok (u, j) m =>
        let m := { m with heap := m.heap.modifyScope live (·.insert x u.value) }
        updateNames call scratch live xs (s.note x u.outcome) j m
      | .error e m => ⟨.error (e.map (.patch x)), j, m⟩
    | _, _ => updateNames call scratch live xs s j m

/-- Changes the live namespace into the scratch one. -/
def apply (call : Caller) (scratch live : ScopeRef) : Merging Summary := fun m =>
  let diff := NameDiff.between (m.heap.scope live).names (m.heap.scope scratch).names [selfName]
  let journal := Journal.start m.heap live
  let heap := removeNames live diff.removed (addNames scratch live diff.added m.heap)
  let s : Summary := { Summary.none with added := diff.added, removed := diff.removed }
  match updateNames call scratch live diff.shared s journal { m with heap } with
  | ⟨.ok s, _, m⟩ => .ok s m
  | ⟨.error (.failure e), j, m⟩ => .error (.failure e) { m with heap := j.rollback m.heap }
  | ⟨.error .divergence, _, m⟩ => .error .divergence m

end Merge

/-- Merges a unit into a module under a limit on the call depth. -/
def merge (limit : Nat) (u : CodeUnit) (module : ModuleRef) : Merging Summary := fun m =>
  let o := m.heap.module module
  let (scratch, heap) := m.heap.newScope
  match CodeUnit.run limit u scratch o.name { m with heap } with
  | .ok () m => Merge.apply (Run.call limit) scratch o.scope m
  | .error e m => .error (e.map (.execution o.name)) m

end LivePatch
