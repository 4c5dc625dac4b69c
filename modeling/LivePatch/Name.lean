/-
Names: identifiers, and the dotted names of modules. A module `a.b.c` has the parent `a.b` and the
leaf `c`.
-/
namespace LivePatch

/-- A name, compared by its text. -/
abbrev Name := String

namespace Name

/-- Names between double underscores are reserved for slots of the language itself. -/
def isReserved (name : Name) : Bool :=
  4 < name.utf8ByteSize && ['_', '_'].isPrefixOf name.toList && ['_', '_'].isSuffixOf name.toList

/-- The text before and after the last dot. -/
def splitLastDot : List Char → Option (List Char × List Char)
  | [] => none
  | c :: cs =>
    match splitLastDot cs with
    | some (parent, leaf) => some (c :: parent, leaf)
    | none => if c = '.' then some ([], cs) else none

/-- The parent of a dotted name, if it has one, and its leaf. -/
def split (name : Name) : Option Name × Name :=
  match splitLastDot name.toList with
  | some (parent, leaf) => (some (String.ofList parent), String.ofList leaf)
  | none => (none, name)

/-- The texts before each dot, outermost first, when the characters in `read` stand in front in
reverse. -/
def enclosing (read : List Char) : List Char → List (List Char)
  | [] => []
  | c :: cs =>
    if c = '.' then read.reverse :: enclosing (c :: read) cs else enclosing (c :: read) cs

/-- The parents of a dotted name from the innermost to the outermost. -/
def parents (name : Name) : List Name :=
  ((enclosing [] name.toList).map String.ofList).reverse

/-! ## Parents -/

theorem enclosing_of_splitLastDot_none {cs : List Char} (h : splitLastDot cs = none) :
    ∀ read, enclosing read cs = [] := by
  induction cs with
  | nil => exact fun _ => rfl
  | cons c cs ih =>
    intro read
    unfold splitLastDot at h
    split at h
    · cases h
    · rename_i hcs
      split at h
      · cases h
      · rename_i hc
        rw [enclosing, if_neg hc]
        exact ih hcs _

/-- The text before the last dot is the last one that encloses a name, after those that enclose it. -/
theorem enclosing_of_splitLastDot {cs parent leaf : List Char} (h : splitLastDot cs = some (parent, leaf)) :
    ∀ read, enclosing read cs = enclosing read parent ++ [read.reverse ++ parent] := by
  induction cs generalizing parent with
  | nil => cases h
  | cons c cs ih =>
    intro read
    unfold splitLastDot at h
    split at h
    · rename_i parent' _ hcs
      cases h
      rw [enclosing, enclosing, ih hcs, List.reverse_cons, List.append_assoc, List.singleton_append]
      split
      · exact (List.cons_append ..).symm
      · rfl
    · rename_i hcs
      split at h
      · rename_i hc
        cases h
        show (if c = '.' then read.reverse :: enclosing (c :: read) _ else _) = [] ++ [read.reverse ++ []]
        rw [if_pos hc, enclosing_of_splitLastDot_none hcs, List.append_nil, List.nil_append]
      · cases h

theorem length_of_splitLastDot {cs parent leaf : List Char} (h : splitLastDot cs = some (parent, leaf)) :
    parent.length < cs.length := by
  induction cs generalizing parent with
  | nil => cases h
  | cons c cs ih =>
    unfold splitLastDot at h
    split at h
    · rename_i hcs
      cases h
      exact Nat.succ_lt_succ (ih hcs)
    · split at h
      · cases h
        exact Nat.succ_pos _
      · cases h

/-- The parents of a name are its parent and the parents of that. -/
theorem parents_eq (name : Name) :
    name.parents =
      match name.split.1 with
      | some parent => parent :: parent.parents
      | none => [] := by
  unfold split
  cases h : splitLastDot name.toList with
  | none =>
    unfold parents
    rw [enclosing_of_splitLastDot_none h]
    rfl
  | some pl =>
    obtain ⟨parent, leaf⟩ := pl
    show name.parents = String.ofList parent :: parents (String.ofList parent)
    unfold parents
    rw [enclosing_of_splitLastDot h, String.toList_ofList, List.map_append, List.reverse_append]
    rfl

theorem mem_enclosing {parent cs : List Char} (read : List Char) :
    parent ∈ enclosing read cs ↔
      ∃ front rest, cs = front ++ '.' :: rest ∧ parent = read.reverse ++ front := by
  induction cs generalizing read with
  | nil => simp [enclosing]
  | cons c cs ih =>
    have hstep : parent ∈ enclosing read (c :: cs) ↔
        (c = '.' ∧ parent = read.reverse) ∨ parent ∈ enclosing (c :: read) cs := by
      rw [enclosing]
      split <;> simp [*]
    rw [hstep, ih]
    constructor
    · rintro (⟨rfl, rfl⟩ | ⟨front, rest, rfl, rfl⟩)
      · exact ⟨[], cs, rfl, (List.append_nil _).symm⟩
      · exact ⟨c :: front, rest, rfl, by simp⟩
    · rintro ⟨front, rest, hcs, rfl⟩
      cases front with
      | nil =>
        cases hcs
        exact .inl ⟨rfl, List.append_nil _⟩
      | cons d front =>
        cases hcs
        exact .inr ⟨front, rest, rfl, by simp⟩

theorem mem_parents {name parent : Name} :
    parent ∈ name.parents ↔ ∃ rest : String, name = parent ++ "." ++ rest := by
  unfold parents
  rw [List.mem_reverse, List.mem_map]
  constructor
  · rintro ⟨cs, hcs, rfl⟩
    obtain ⟨front, rest, hname, rfl⟩ := (mem_enclosing []).1 hcs
    refine ⟨String.ofList rest, String.toList_inj.1 ?_⟩
    simp [hname]
  · rintro ⟨rest, rfl⟩
    refine ⟨parent.toList, (mem_enclosing []).2 ⟨parent.toList, rest.toList, ?_, rfl⟩, ?_⟩
    · simp
    · exact String.ofList_toList ..

theorem not_mem_parents (name : Name) : name ∉ name.parents := by
  intro h
  obtain ⟨rest, hrest⟩ := mem_parents.1 h
  have hlength := congrArg (·.toList.length) hrest
  simp at hlength

theorem parent_ne {name parent : Name} (h : name.split.1 = some parent) : parent ≠ name := by
  unfold split at h
  split at h
  · rename_i hl
    cases h
    have hlt := length_of_splitLastDot hl
    intro he
    rw [← he, String.toList_ofList] at hlt
    exact Nat.lt_irrefl _ hlt
  · cases h

end Name

end LivePatch
