/-
The difference between two lists of names.
-/
import LivePatch.Name

namespace LivePatch

/-- What became of some names: which are new, which are gone, and which stayed. -/
structure NameDiff where
  /-- The new names that are not old, in the new order. -/
  added : List Name
  /-- The old names that are not new, in the old order. -/
  removed : List Name
  /-- The old names that are also new, in the old order. -/
  shared : List Name
  deriving DecidableEq, Repr

namespace NameDiff

/-- The difference from `old` to `new`. The names in `exempt` are never removed. -/
def between (old new exempt : List Name) : NameDiff where
  added := new.filter fun x => !old.contains x
  removed := old.filter fun x => !new.contains x && !exempt.contains x
  shared := old.filter fun x => new.contains x

/-- The same difference with some names left out of those that stayed. -/
def withoutShared (d : NameDiff) (names : List Name) : NameDiff :=
  { d with shared := d.shared.filter fun x => !names.contains x }

/-- A difference that reports no name. -/
def isEmpty (d : NameDiff) : Bool := d.added.isEmpty && d.removed.isEmpty && d.shared.isEmpty

/-! ## What is reported -/

section

variable {old new exempt : List Name} {x : Name}

theorem mem_added : x ∈ (between old new exempt).added ↔ x ∈ new ∧ x ∉ old := by
  simp [between]

theorem mem_removed :
    x ∈ (between old new exempt).removed ↔ x ∈ old ∧ x ∉ new ∧ x ∉ exempt := by
  simp [between]

theorem mem_shared : x ∈ (between old new exempt).shared ↔ x ∈ old ∧ x ∈ new := by
  simp [between]

end

end NameDiff

end LivePatch
