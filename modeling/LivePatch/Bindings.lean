/-
Bindings: names with what they stand for, in the order in which they were first bound. A name is
bound once; binding it again keeps its place, and unbinding it keeps the order of the others.
-/
import LivePatch.Name

namespace LivePatch

/-- Names bound in order, each once. -/
structure Bindings (α : Type) where
  entries : List (Name × α)
  nodup : (entries.map Prod.fst).Nodup

namespace Bindings

variable {α : Type}

/-- The bound names in order. -/
def names (b : Bindings α) : List Name := b.entries.map Prod.fst

def size (b : Bindings α) : Nat := b.entries.length

/-- What a name stands for. -/
def get? (b : Bindings α) (x : Name) : Option α := b.entries.lookup x

def contains (b : Bindings α) (x : Name) : Bool := (b.get? x).isSome

def empty : Bindings α := ⟨[], List.nodup_nil⟩

instance : Inhabited (Bindings α) := ⟨empty⟩

@[ext] theorem ext {a b : Bindings α} (h : a.entries = b.entries) : a = b := by
  cases a; cases b; cases h; rfl

theorem lookup_cons (x y : Name) (v : α) (es : List (Name × α)) :
    ((x, v) :: es).lookup y = if y = x then some v else es.lookup y := by
  rw [List.lookup_cons]
  by_cases h : y = x
  · simp [h]
  · rw [beq_false_of_ne h, if_neg h]

/-! ## Binding a name -/

/-- The entries with `x` bound to `v`, in its place if it has one and else at the end. -/
def insertEntry (x : Name) (v : α) : List (Name × α) → List (Name × α)
  | [] => [(x, v)]
  | (y, w) :: rest => if y = x then (y, v) :: rest else (y, w) :: insertEntry x v rest

theorem map_fst_insertEntry (x : Name) (v : α) (es : List (Name × α)) :
    (insertEntry x v es).map Prod.fst =
      if x ∈ es.map Prod.fst then es.map Prod.fst else es.map Prod.fst ++ [x] := by
  induction es with
  | nil => simp [insertEntry]
  | cons e es ih =>
    obtain ⟨y, w⟩ := e
    by_cases h : y = x
    · subst h; simp [insertEntry]
    · have h' : ¬ x = y := fun e => h e.symm
      simp only [insertEntry, if_neg h, List.map_cons, ih, List.mem_cons, h', false_or]
      split <;> simp

theorem nodup_insertEntry (x : Name) (v : α) (es : List (Name × α))
    (h : (es.map Prod.fst).Nodup) : ((insertEntry x v es).map Prod.fst).Nodup := by
  rw [map_fst_insertEntry]
  split
  · exact h
  · rename_i hx
    rw [List.nodup_append]
    refine ⟨h, by simp, ?_⟩
    intro a ha b hb hab
    rw [List.mem_singleton] at hb
    exact hx (hb ▸ hab ▸ ha)

theorem lookup_insertEntry (x y : Name) (v : α) (es : List (Name × α)) :
    (insertEntry x v es).lookup y = if y = x then some v else es.lookup y := by
  induction es with
  | nil => simp [insertEntry, lookup_cons]
  | cons e es ih =>
    obtain ⟨z, w⟩ := e
    by_cases h : z = x
    · subst h
      by_cases hy : y = z <;> simp [insertEntry, lookup_cons, hy]
    · simp only [insertEntry, if_neg h, lookup_cons, ih]
      by_cases hy : y = z
      · subst hy; simp [h]
      · simp [hy]

def insert (b : Bindings α) (x : Name) (v : α) : Bindings α :=
  ⟨insertEntry x v b.entries, nodup_insertEntry x v b.entries b.nodup⟩

theorem names_insert (b : Bindings α) (x : Name) (v : α) :
    (b.insert x v).names = if x ∈ b.names then b.names else b.names ++ [x] :=
  map_fst_insertEntry x v b.entries

theorem get?_insert (b : Bindings α) (x y : Name) (v : α) :
    (b.insert x v).get? y = if y = x then some v else b.get? y :=
  lookup_insertEntry x y v b.entries

/-! ## Unbinding a name -/

def erase (b : Bindings α) (x : Name) : Bindings α :=
  ⟨b.entries.filter (·.1 ≠ x),
    b.nodup.sublist (List.Sublist.map Prod.fst List.filter_sublist)⟩

theorem names_erase (b : Bindings α) (x : Name) :
    (b.erase x).names = b.names.filter (· ≠ x) := by
  simp [erase, names, List.filter_map, Function.comp_def]

theorem lookup_filter_ne (x y : Name) (es : List (Name × α)) :
    (es.filter (·.1 ≠ x)).lookup y = if y = x then none else es.lookup y := by
  induction es with
  | nil => simp
  | cons e es ih =>
    obtain ⟨z, w⟩ := e
    by_cases hz : z = x
    · subst hz
      rw [List.filter_cons_of_neg (by simp), ih, lookup_cons]
      by_cases hy : y = z <;> simp [hy]
    · rw [List.filter_cons_of_pos (by simpa using hz), lookup_cons, lookup_cons, ih]
      by_cases hy : y = z
      · subst hy; simp [hz]
      · simp [hy]

theorem get?_erase (b : Bindings α) (x y : Name) :
    (b.erase x).get? y = if y = x then none else b.get? y :=
  lookup_filter_ne x y b.entries

/-! ## Several names -/

/-- The bindings with those of `other` on top. -/
def override (b other : Bindings α) : Bindings α :=
  other.entries.foldl (fun b e => b.insert e.1 e.2) b

/-- What is bound, in order. -/
def values (b : Bindings α) : List α := b.entries.map Prod.snd

theorem mem_names_iff (b : Bindings α) (x : Name) : x ∈ b.names ↔ (b.get? x).isSome = true := by
  obtain ⟨es, h⟩ := b
  simp only [names, get?]
  clear h
  induction es with
  | nil => simp
  | cons e es ih =>
    obtain ⟨z, w⟩ := e
    rw [List.map_cons, List.mem_cons, ih, lookup_cons]
    by_cases hx : x = z <;> simp only [hx, if_true, if_false, true_or, false_or, Option.isSome_some]

/-! ## What is bound -/

theorem mem_of_lookup {es : List (Name × α)} {x : Name} {v : α} (h : es.lookup x = some v) :
    (x, v) ∈ es := by
  induction es with
  | nil => simp at h
  | cons e es ih =>
    obtain ⟨z, w⟩ := e
    rw [lookup_cons] at h
    split at h
    · rename_i hx
      cases h; subst hx
      exact List.mem_cons_self ..
    · exact List.mem_cons_of_mem _ (ih h)

theorem mem_values_of_get? {b : Bindings α} {x : Name} {v : α} (h : b.get? x = some v) :
    v ∈ b.values :=
  List.mem_map.2 ⟨(x, v), mem_of_lookup h, rfl⟩

theorem mem_insertEntry {x : Name} {v : α} {es : List (Name × α)} {e : Name × α}
    (h : e ∈ insertEntry x v es) : e.2 = v ∨ e ∈ es := by
  induction es with
  | nil =>
    rw [insertEntry, List.mem_singleton] at h
    exact .inl (congrArg Prod.snd h)
  | cons d es ih =>
    obtain ⟨y, w⟩ := d
    rw [insertEntry] at h
    split at h
    · rcases List.mem_cons.1 h with rfl | h
      · exact .inl rfl
      · exact .inr (List.mem_cons_of_mem _ h)
    · rcases List.mem_cons.1 h with rfl | h
      · exact .inr (List.mem_cons_self ..)
      · exact (ih h).imp id (List.mem_cons_of_mem _)

theorem mem_values_insert {b : Bindings α} {x : Name} {v w : α} (h : w ∈ (b.insert x v).values) :
    w = v ∨ w ∈ b.values := by
  obtain ⟨e, he, rfl⟩ := List.mem_map.1 h
  exact (mem_insertEntry he).imp id fun he => List.mem_map.2 ⟨e, he, rfl⟩

theorem mem_values_erase {b : Bindings α} {x : Name} {w : α} (h : w ∈ (b.erase x).values) :
    w ∈ b.values := by
  obtain ⟨e, he, rfl⟩ := List.mem_map.1 h
  exact List.mem_map.2 ⟨e, (List.mem_filter.1 he).1, rfl⟩

theorem mem_values_foldl_insert {es : List (Name × α)} {b : Bindings α} {w : α}
    (h : w ∈ (es.foldl (fun b e => b.insert e.1 e.2) b).values) :
    w ∈ b.values ∨ w ∈ es.map Prod.snd := by
  induction es generalizing b with
  | nil => exact .inl h
  | cons e es ih =>
    rcases ih h with h | h
    · rcases mem_values_insert h with rfl | h
      · exact .inr (List.mem_cons_self ..)
      · exact .inl h
    · exact .inr (List.mem_cons_of_mem _ h)

theorem mem_values_override {b other : Bindings α} {w : α} (h : w ∈ (b.override other).values) :
    w ∈ b.values ∨ w ∈ other.values := mem_values_foldl_insert h

theorem get?_foldl_insert {es : List (Name × α)} (hn : (es.map Prod.fst).Nodup) {b : Bindings α} (y : Name) :
    (es.foldl (fun b e => b.insert e.1 e.2) b).get? y = (es.lookup y).or (b.get? y) := by
  induction es generalizing b with
  | nil => rfl
  | cons e es ih =>
    obtain ⟨x, v⟩ := e
    obtain ⟨hx, hn⟩ : x ∉ es.map Prod.fst ∧ _ := List.nodup_cons.1 hn
    rw [List.foldl_cons, ih hn, get?_insert, lookup_cons]
    by_cases hy : y = x
    · subst hy
      have hnone : es.lookup y = none := by
        refine List.lookup_eq_none_iff.2 fun e he => bne_iff_ne.2 ?_
        rintro rfl
        exact hx (List.mem_map_of_mem he)
      rw [if_pos rfl, if_pos rfl, hnone]
      rfl
    · rw [if_neg hy, if_neg hy]

/-- What lies on top hides what is below it, and nothing else. -/
theorem get?_override (b other : Bindings α) (y : Name) :
    (b.override other).get? y = (other.get? y).or (b.get? y) := get?_foldl_insert other.nodup y

/-! ## Equality -/

/-- Bindings of the same names in the same order, each to the same, are the same. -/
theorem ext_get? {a b : Bindings α} (hn : a.names = b.names) (hg : ∀ x, a.get? x = b.get? x) :
    a = b := by
  obtain ⟨as, ha⟩ := a
  obtain ⟨bs, hb⟩ := b
  simp only [names, get?] at hn hg
  apply ext
  show as = bs
  induction as generalizing bs with
  | nil => cases bs <;> simp_all
  | cons e as ih =>
    cases bs with
    | nil => simp at hn
    | cons d bs =>
      obtain ⟨x, v⟩ := e
      obtain ⟨y, w⟩ := d
      simp only [List.map_cons, List.cons.injEq, List.nodup_cons] at hn ha hb
      obtain ⟨rfl, hn⟩ := hn
      have hv : v = w := by simpa [lookup_cons] using hg x
      have hrest : as = bs := by
        refine ih ha.2 bs hb.2 hn fun z => ?_
        by_cases hz : z = x
        · subst hz
          rw [List.lookup_eq_none_iff.2 fun p hp => ?_, List.lookup_eq_none_iff.2 fun p hp => ?_]
          · have hne : z ≠ p.1 := by rintro rfl; exact hb.1 (List.mem_map_of_mem hp)
            simpa using hne
          · have hne : z ≠ p.1 := by rintro rfl; exact ha.1 (List.mem_map_of_mem hp)
            simpa using hne
        · have := hg z
          rwa [lookup_cons, lookup_cons, if_neg hz, if_neg hz] at this
      rw [hv, hrest]

end Bindings

end LivePatch
