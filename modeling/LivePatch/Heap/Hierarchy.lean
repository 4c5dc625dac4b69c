/-
Classes and their bases. An attribute is looked up in a class itself and then in its bases, depth
first from left to right.

A class is made after its bases, so that a base always has a smaller index than the class. The walk
up from a class is bounded by its index for this reason.
-/
import LivePatch.Heap

namespace LivePatch

/-- A search does not change when it finds the same in every element. -/
theorem findSome?_congr {α β : Type} {f g : α → Option β} :
    ∀ {as : List α}, (∀ a ∈ as, f a = g a) → as.findSome? f = as.findSome? g
  | [], _ => rfl
  | a :: as, h => by
    rw [List.findSome?_cons, List.findSome?_cons, h a (List.mem_cons_self ..),
      findSome?_congr fun b hb => h b (List.mem_cons_of_mem _ hb)]

namespace Heap

/-- The first attribute of the name, walking up at most `n` classes from `c`. -/
def lookupWithin (h : Heap) (x : Name) : Nat → ClassRef → Option Value
  | 0, _ => none
  | n + 1, c =>
    match (h.type c).attrs.get? x with
    | some v => some v
    | none => (h.type c).bases.findSome? (lookupWithin h x n)

/-- The attribute that a class has itself or through its bases. -/
def lookup (h : Heap) (c : ClassRef) (x : Name) : Option Value := h.lookupWithin x (c.index + 1) c

/-- Whether `other` is met walking up at most `n` classes from `c`. -/
def descendsWithin (h : Heap) (other : ClassRef) : Nat → ClassRef → Bool
  | 0, _ => false
  | n + 1, c => c = other || (h.type c).bases.any (descendsWithin h other n)

/-- Whether a class is another one or inherits from it. -/
def isSubclass (h : Heap) (c other : ClassRef) : Bool := h.descendsWithin other (c.index + 1) c

end Heap

end LivePatch
