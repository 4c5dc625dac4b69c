/-
Arenas: the objects of one kind, numbered in the order in which they were made. An object is never
taken away, so a reference stays good for ever.
-/
import LivePatch.Value

namespace LivePatch

/-- The objects of one kind. -/
structure Arena (κ : ObjectKind) (α : Type) where
  cells : Array α

namespace Arena

variable {κ : ObjectKind} {α : Type}

def empty : Arena κ α := ⟨#[]⟩

instance : Inhabited (Arena κ α) := ⟨empty⟩

def size (a : Arena κ α) : Nat := a.cells.size

def get [Inhabited α] (a : Arena κ α) (r : Ref κ) : α := a.cells.getD r.index default

/-- The reference that the next new object gets. -/
def next (a : Arena κ α) : Ref κ := ⟨a.cells.size⟩

/-- The arena with a new object. -/
def push (a : Arena κ α) (x : α) : Arena κ α := ⟨a.cells.push x⟩

/-- The arena with the state of one object changed. -/
def modify (a : Arena κ α) (r : Ref κ) (f : α → α) : Arena κ α := ⟨a.cells.modify r.index f⟩

/-! ## What is found after a change -/

@[simp] theorem size_push (a : Arena κ α) (x : α) : (a.push x).size = a.size + 1 := by
  simp [push, size]

@[simp] theorem size_modify (a : Arena κ α) (r : Ref κ) (f : α → α) :
    (a.modify r f).size = a.size := by
  simp [modify, size]

/-- A new object has the state it was made with. -/
@[simp] theorem get_push_next [Inhabited α] (a : Arena κ α) (x : α) : (a.push x).get a.next = x := by
  simp [push, get, next]

/-- A new object leaves the others as they are. -/
theorem get_push_of_lt [Inhabited α] (a : Arena κ α) (x : α) {r : Ref κ} (h : r.index < a.size) :
    (a.push x).get r = a.get r := by
  have h' : r.index < a.cells.size := h
  simp [push, get, Array.getD, h', Nat.lt_succ_of_lt h', Array.getElem_push_lt]

/-- The changed object has its new state. -/
theorem get_modify_self [Inhabited α] (a : Arena κ α) (f : α → α) {r : Ref κ}
    (h : r.index < a.size) : (a.modify r f).get r = f (a.get r) := by
  have h' : r.index < a.cells.size := h
  simp [modify, get, Array.getD, h', Array.getElem_modify]

/-- Every other object is as it was. -/
theorem get_modify_of_ne [Inhabited α] (a : Arena κ α) (f : α → α) {r s : Ref κ} (h : s ≠ r) :
    (a.modify r f).get s = a.get s := by
  have h' : r.index ≠ s.index := fun e => h (by cases r; cases s; cases e; rfl)
  by_cases hs : s.index < a.cells.size <;>
    simp [modify, get, Array.getD, hs, Array.getElem_modify, h']

/-- An object is as it was, or it is the changed one. -/
theorem get_modify_or [Inhabited α] (a : Arena κ α) (r s : Ref κ) (f : α → α) :
    (a.modify r f).get s = a.get s ∨ s = r ∧ (a.modify r f).get s = f (a.get s) := by
  by_cases h : s = r
  · subst h
    by_cases hs : s.index < a.size
    · exact .inr ⟨rfl, get_modify_self a f hs⟩
    · have hs' : ¬ s.index < a.cells.size := hs
      left
      simp [modify, get, Array.getD, hs']
  · exact .inl (get_modify_of_ne a f h)

/-- A change leaves alone whatever it keeps of every state. -/
theorem map_get_modify [Inhabited α] {β : Type} (a : Arena κ α) (r s : Ref κ) {f : α → α}
    (π : α → β) (hf : ∀ x, π (f x) = π x) : π ((a.modify r f).get s) = π (a.get s) := by
  rcases get_modify_or a r s f with h | ⟨-, h⟩
  · rw [h]
  · rw [h, hf]

/-- Two changes of one object are one change. -/
theorem modify_modify (a : Arena κ α) (r : Ref κ) (f g : α → α) :
    (a.modify r f).modify r g = a.modify r (fun x => g (f x)) := by
  unfold modify
  congr 1
  apply Array.ext
  · simp
  · intro i h₁ h₂
    simp only [Array.getElem_modify]
    split <;> rfl

/-- A change to the same state is none. -/
theorem modify_id (a : Arena κ α) (r : Ref κ) : a.modify r (fun x => x) = a := by
  unfold modify
  congr 1
  apply Array.ext
  · simp
  · intro i h₁ h₂
    simp only [Array.getElem_modify, ite_self]

/-- Arenas of the same objects are the same. -/
theorem ext_get [Inhabited α] {a b : Arena κ α} (hs : a.size = b.size)
    (hg : ∀ r : Ref κ, r.index < a.size → a.get r = b.get r) : a = b := by
  obtain ⟨as⟩ := a
  obtain ⟨bs⟩ := b
  have hs : as.size = bs.size := hs
  congr 1
  refine Array.ext hs fun i h₁ h₂ => ?_
  have hi := hg ⟨i⟩ h₁
  simpa [get, Array.getD, h₁, h₂] using hi

end Arena

end LivePatch
