/-
The update of a class. It goes on to the classes that old and new class both hold, and so on, over a graph
of classes that may be shared and cyclic and that it changes on its way; what stops it is that each class is
recorded when it is entered and passed over from then on. So the bound under which it runs is never used up:
the update comes to the same end without one. When each old class is paired with a single new one, this end
can be read off the heap before.
-/
import LivePatch.Proofs.Module.Coverage
import Mathlib.Data.Finset.Card
import Mathlib.Data.Finset.Range

namespace LivePatch

namespace Journaled

/-! ## Without a bound -/

/-- What there is to do: to update a class, or to go through attributes that it shares with its new version. -/
inductive Task where
  | type (old new : ClassRef)
  | slots (old new : ClassRef) (xs : List Name)

/-- The update of a class as a recursion without a bound, which comes to an end. -/
inductive Performs : Task → Journaled → Journaled → Prop
  | pass {old new : ClassRef} {s : Journaled} (h : old = new ∨ s.journal.hasClass old = true) :
      Performs (.type old new) s s
  | enter {old new : ClassRef} {s t : Journaled} (h : ¬ (old = new ∨ s.journal.hasClass old = true))
      (hs : Performs (.slots old new (s.heap.sharedSlots old new)) (s.entered old new) t) :
      Performs (.type old new) s t
  | done {old new : ClassRef} {s : Journaled} : Performs (.slots old new []) s s
  | nested {old new c d : ClassRef} {x : Name} {xs : List Name} {s t u : Journaled}
      (hx : s.heap.sharedClasses? old new x = some (c, d)) (hc : Performs (.type c d) s t)
      (hs : Performs (.slots old new xs) t u) : Performs (.slots old new (x :: xs)) s u
  | plain {old new : ClassRef} {x : Name} {xs : List Name} {s t : Journaled}
      (hx : s.heap.sharedClasses? old new x = none)
      (hs : Performs (.slots old new xs) (s.takeSlot old new x) t) : Performs (.slots old new (x :: xs)) s t

/-- The recursion comes to one end only. -/
theorem Performs.unique {task : Task} {s t u : Journaled} (h₁ : Performs task s t) (h₂ : Performs task s u) :
    t = u := by
  induction h₁ generalizing u with
  | pass h =>
    cases h₂ with
    | pass => rfl
    | enter hno => exact absurd h hno
  | enter hno _ ih =>
    cases h₂ with
    | pass h => exact absurd h hno
    | enter _ hs => exact ih hs
  | done =>
    cases h₂
    rfl
  | nested hx _ _ ihc ihs =>
    cases h₂ with
    | nested hx' hc hs =>
      cases hx.symm.trans hx'
      cases ihc hc
      exact ihs hs
    | plain hx' =>
      rw [hx] at hx'
      cases hx'
  | plain hx _ ih =>
    cases h₂ with
    | nested hx' =>
      rw [hx] at hx'
      cases hx'
    | plain _ hs => exact ih hs

variable {s t : Journaled} {old new : ClassRef}

/-! ## The bound is not used up -/

/-- The classes that are not recorded. -/
def unrecorded (s : Journaled) : Finset Nat :=
  (Finset.range s.heap.classes.size).filter fun i => s.journal.hasClass ⟨i⟩ = false

theorem mem_unrecorded {c : ClassRef} :
    c.index ∈ s.unrecorded ↔ c.index < s.heap.classes.size ∧ s.journal.hasClass c = false := by
  unfold unrecorded
  rw [Finset.mem_filter, Finset.mem_range]

theorem card_unrecorded_le (s : Journaled) : s.unrecorded.card ≤ s.heap.classes.size :=
  (Finset.card_filter_le _ _).trans_eq (Finset.card_range _)

/-- No record is lost, and no class is made. -/
structure Records (s t : Journaled) : Prop where
  size : t.heap.classes.size = s.heap.classes.size
  kept : ∀ c, s.journal.hasClass c = true → t.journal.hasClass c = true

theorem Records.unrecorded_subset (h : Records s t) : t.unrecorded ⊆ s.unrecorded := by
  intro i hi
  obtain ⟨hlt, hno⟩ := mem_unrecorded (c := ⟨i⟩).1 hi
  rw [h.size] at hlt
  refine mem_unrecorded (c := ⟨i⟩).2 ⟨hlt, Bool.eq_false_iff.2 fun hyes => ?_⟩
  rw [h.kept _ hyes] at hno
  cases hno

/-- A class that is recorded is one less. -/
theorem Records.card_lt (h : Records s t) (hlt : old.index < s.heap.classes.size)
    (hs : s.journal.hasClass old = false) (ht : t.journal.hasClass old = true) :
    t.unrecorded.card < s.unrecorded.card := by
  refine Finset.card_lt_card (Finset.ssubset_iff_of_subset h.unrecorded_subset |>.2
    ⟨old.index, mem_unrecorded.2 ⟨hlt, hs⟩, fun hm => ?_⟩)
  rw [(mem_unrecorded.1 hm).2] at ht
  cases ht

theorem records_updateClassWithin (n : Nat) (old new : ClassRef) (s : Journaled) :
    Records s (updateClassWithin n old new s) := by
  let L : ClassLaw :=
    { inv := fun t => t.heap.classes.size = s.heap.classes.size
      allowed := fun _ => True
      attr := fun _ _ _ => trivial
      record := fun ht _ => ht
      change := fun ht _ _ => (Arena.size_modify _ _ _).trans ht }
  obtain ⟨hsize, hkept⟩ := L.updateClassWithin_advances n (s := s) old new rfl trivial trivial
  exact ⟨hsize, hkept⟩

theorem records_takeSlot (s : Journaled) (old new : ClassRef) (x : Name) :
    Records s (s.takeSlot old new x) := by
  unfold takeSlot
  split
  · exact ⟨Arena.size_modify _ _ _, fun _ => id⟩
  · exact ⟨rfl, fun _ => id⟩

theorem records_entered (s : Journaled) (hne : new ≠ old) : Records s (s.entered old new) := by
  rw [entered_eq hne]
  exact ⟨Arena.size_modify _ _ _, fun _ => s.journal.hasClass_recordClass_of s.heap⟩

/-- Only a class that is there shares attributes. -/
theorem index_lt_of_mem_sharedSlots {h : Heap} {x : Name} (hx : x ∈ h.sharedSlots old new) :
    old.index < h.classes.size := by
  by_contra hlt
  have hno : h.type old = default := h.classes.get_of_size_le (Nat.not_lt.1 hlt)
  have hx := (Heap.mem_sharedSlots.1 hx).1
  rw [hno] at hx
  cases hx

/-- Going through shared attributes is performed when the updates that it goes on to are. -/
theorem foldl_performs {update : ClassRef → ClassRef → Journaled → Journaled} {n : Nat}
    (hu : ∀ {c d : ClassRef} {t : Journaled}, t.unrecorded.card < n →
      Performs (.type c d) t (update c d t) ∧ Records t (update c d t)) :
    ∀ (xs : List Name) {s : Journaled}, (∀ x ∈ xs, s.unrecorded.card < n) →
      Performs (.slots old new xs) s (xs.foldl (nextSlot update old new) s)
  | [], _, _ => .done
  | x :: xs, s, hs => by
    have hlt := hs x (List.mem_cons_self ..)
    rw [List.foldl_cons]
    cases hx : s.heap.sharedClasses? old new x with
    | some p =>
      obtain ⟨c, d⟩ := p
      have hnext : nextSlot update old new s x = update c d s := by
        unfold nextSlot
        rw [hx]
      obtain ⟨hperforms, hrecords⟩ := @hu c d s hlt
      rw [hnext]
      exact .nested hx hperforms (foldl_performs hu xs fun _ _ =>
        (Finset.card_le_card hrecords.unrecorded_subset).trans_lt hlt)
    | none =>
      have hnext : nextSlot update old new s x = s.takeSlot old new x := by
        unfold nextSlot
        rw [hx]
      rw [hnext]
      exact .plain hx (foldl_performs hu xs fun _ _ =>
        (Finset.card_le_card (s.records_takeSlot old new x).unrecorded_subset).trans_lt hlt)

/-- The bound does not matter as long as it exceeds the number of classes that are not recorded: each step
inwards enters one of them. -/
theorem updateClassWithin_performs : ∀ (n : Nat) {old new : ClassRef} {s : Journaled},
    s.unrecorded.card < n → Performs (.type old new) s (updateClassWithin n old new s)
  | 0, _, _, _, hn => absurd hn (Nat.not_lt_zero _)
  | n + 1, old, new, s, hn => by
    rw [updateClassWithin_succ]
    split
    · exact .pass ‹_›
    · rename_i hno
      obtain ⟨hne, hnew⟩ := not_or.1 hno
      refine .enter hno (foldl_performs (n := n) (fun ht => ⟨updateClassWithin_performs n ht,
        records_updateClassWithin ..⟩) _ fun x hx => ?_)
      have hne : new ≠ old := fun h => hne h.symm
      have hrecorded : (s.entered old new).journal.hasClass old = true :=
        s.journal.hasClass_recordClass s.heap old
      have hlt := (s.records_entered hne).card_lt (index_lt_of_mem_sharedSlots hx)
        (Bool.eq_false_iff.2 hnew) hrecorded
      omega

/-- The update of a class is what the recursion without a bound comes to, whatever the classes hold. -/
theorem performs_iff : Performs (.type old new) s t ↔ t = s.updateClass old new := by
  have hperforms : Performs (.type old new) s (s.updateClass old new) :=
    updateClassWithin_performs _ (Nat.lt_succ_of_le s.card_unrecorded_le)
  refine ⟨fun h => h.unique hperforms, ?_⟩
  rintro rfl
  exact hperforms

end Journaled

/-! ## What the update makes of the classes -/

namespace Heap

variable {h k : Heap} {old new c d : ClassRef}

/-- What the old class of a pair has become on a later heap. -/
structure TakesAttrs (h : Heap) (c d : ClassRef) (k : Heap) : Prop where
  /-- The names that stay come first, in the old order, and then those that are new, in the new order. -/
  names : (k.type c).attrs.names =
    (h.type c).attrs.names.filter (fun x => x ∈ (h.type d).attrs.names ∨ x ∈ preservedSlots) ++
      (h.type d).attrs.names.filter (· ∉ (h.type c).attrs.names)
  preserved : ∀ x ∈ preservedSlots, x ∈ (h.type c).attrs.names →
    (k.type c).attrs.get? x = (h.type c).attrs.get? x
  nested : ∀ x ∉ preservedSlots, ∀ e e', (h.type c).attrs.get? x = some (.type e) →
    (h.type d).attrs.get? x = some (.type e') → (k.type c).attrs.get? x = some (.type e)
  /-- Any other attribute has the value of the new class, or is gone if this one has none. -/
  taken : ∀ x, ¬ (x ∈ preservedSlots ∧ x ∈ (h.type c).attrs.names) →
    (∀ e e', (h.type c).attrs.get? x = some (.type e) → (h.type d).attrs.get? x ≠ some (.type e')) →
    (k.type c).attrs.get? x = (h.type d).attrs.get? x
  fixed : (k.type c).fixed = (h.type c).fixed

/-- What has become of the classes, of which nothing else on the heap has changed. -/
structure Renews (h : Heap) (old new : ClassRef) (k : Heap) : Prop where
  paired : ∀ {c d}, h.Leads old new c d → h.TakesAttrs c d k
  /-- A class that is no old class of a pair is as it was, so every new class is. -/
  others : ∀ c, (∀ d, ¬ h.Leads old new c d) → k.type c = h.type c
  rest : ∃ classes, k = { h with classes }

theorem TakesAttrs.of_updated (hu : Journaled.Updated h (c, d) k) (hf : (k.type c).fixed = (h.type c).fixed) :
    h.TakesAttrs c d k where
  names := by
    rw [show (k.type c).attrs = _ from hu]
    exact Journaled.names_slotsAfter h c d
  preserved x hx hc := by
    rw [Bindings.mem_names_iff] at hc
    rw [hu.took x]
    unfold slotAfter
    rw [if_pos ⟨hx, hc⟩]
  nested x hx e e' hc hd := by
    have hshared : x ∈ h.sharedSlots c d := by
      rw [mem_sharedSlots, Bindings.mem_names_iff, Bindings.mem_names_iff, hc, hd]
      exact ⟨rfl, rfl, hx⟩
    rw [hu.took x]
    exact slotAfter_nested hshared (sharedClasses?_of_some hc hd)
  taken x hx hno := by
    have hclasses : h.sharedClasses? c d x = none := by
      cases hs : h.sharedClasses? c d x with
      | none => rfl
      | some p => exact absurd (sharedClasses?_eq_some hs).2 (hno _ _ (sharedClasses?_eq_some hs).1)
    rw [hu.took x]
    unfold slotAfter
    rw [if_neg fun hp => hx ⟨hp.1, (Bindings.mem_names_iff _ x).2 hp.2⟩, hclasses]
  fixed := hf

/-- Places that include the first one, and whatever they refer to, are all that can be reached. -/
theorem Reaches.mem {a b : Node} (hr : h.Reaches a b) {nodes : List Node} (ha : a ∈ nodes)
    (hrefs : ∀ a ∈ nodes, ∀ b ∈ h.refs a, b ∈ nodes) : b ∈ nodes := by
  induction hr with
  | refl => exact ha
  | tail _ hb ih => exact hrefs _ ih _ hb

/-- The update goes from a class to classes that can be reached from it. -/
theorem Leads.reaches (hl : h.Leads old new c d) :
    h.Reaches (.value (.type old)) (.value (.type c)) ∧ h.Reaches (.value (.type new)) (.value (.type d)) := by
  have hslot : ∀ {c e : ClassRef} {x : Name}, (h.type c).attrs.get? x = some (.type e) →
      .value (.type e) ∈ h.refs (.value (.type c)) :=
    fun hx => List.mem_append_right _ (List.mem_map_of_mem (Bindings.mem_values_of_get? hx))
  induction hl with
  | here => exact ⟨.refl, .refl⟩
  | slot _ _ hs ih =>
    obtain ⟨hc, hd⟩ := sharedClasses?_eq_some hs
    exact ⟨ih.1.tail (hslot hc), ih.2.tail (hslot hd)⟩

/-- Between classes that have no class in common, the update does not come to a new class as an old one. -/
theorem Leads.walkable (hc : h.Closed) (hold : h.There (.type old))
    (hd : ∀ c : ClassRef, h.Reaches (.value (.type old)) (.value (.type c)) →
      ¬ h.Reaches (.value (.type new)) (.value (.type c))) : Journaled.Walkable h (h.Leads old new) where
  there := by
    intro c d hl
    cases hl with
    | here => exact hold.2
    | slot _ _ hs => exact slot_there hc (sharedClasses?_eq_some hs).1
  apart := by
    rintro c d e k hl hl' rfl
    exact hd e hl'.reaches.1 hl.reaches.2
  slot hl hx hs := .slot hl hx hs

end Heap

/-- The update of a class from another with which it has no class in common, neither directly nor in what
can be reached, comes to an end without its bound. When each old class is paired with a single new one, each
old class has taken over the attributes of its new version, and nothing else has changed. -/
theorem Journaled.updateClass_outcome {s : Journaled} {old new : ClassRef} (hc : s.heap.Closed)
    (hold : s.heap.There (.type old)) (hj : ∀ c, s.journal.hasClass c = false)
    (hd : ∀ c : ClassRef, s.heap.Reaches (.value (.type old)) (.value (.type c)) →
      ¬ s.heap.Reaches (.value (.type new)) (.value (.type c))) :
    (∀ t, Performs (.type old new) s t ↔ t = s.updateClass old new) ∧
      ((∀ ⦃c d d' : ClassRef⦄, s.heap.Leads old new c d → s.heap.Leads old new c d' → d = d') →
        s.heap.Renews old new (s.updateClass old new).heap) := by
  refine ⟨fun t => performs_iff, fun ho => ?_⟩
  have hwalked : Walked s.heap (s.heap.Leads old new) [] s :=
    ⟨fun c => by rw [hj c]; exact ⟨nofun, nofun⟩, fun _ _ => rfl, List.nodup_nil, nofun, rfl⟩
  have hon := updateClassWithin_onward (Heap.Leads.walkable hc hold hd) (s.heap.classes.size + 1) .here hwalked
  have hpairs : ∀ {c d : ClassRef}, (c, d) ∈ s.heap.pairWithin (s.heap.classes.size + 1) old new [] ↔
      s.heap.Leads old new c d := Heap.mem_pairWithin_iff hc hold.2 ho
  refine ⟨fun {c d} hl => ?_, fun c hno => ?_, s.updateClass_others old new⟩
  · obtain ⟨rs, hrs, hupdated⟩ := hon.more
    rw [List.nil_append] at hrs
    refine .of_updated (hupdated (c, d) (hrs ▸ hpairs.2 hl)) ?_
    exact (s.updateClass_footprint old new).classes.get c ((Heap.Leads.walkable hc hold hd).there hl)
  · refine hon.walked.pristine c fun hm => ?_
    obtain ⟨⟨c, d⟩, hp, rfl⟩ := List.mem_map.1 hm
    exact hno d (hpairs.1 hp)

/-! ## A cyclic class -/

namespace Sample

/-- Two versions of a class, in each of which there is a class that holds the outer one in turn. -/
def rings : Machine :=
  machine [.classDef "C" [] [number "gone" 1, number "x" 1, holder "D" "y"] (some "old") .dummy,
    .assign (.attr (.attr (.ident "C" .dummy) "D" .dummy) "up" .dummy) (.ident "C" .dummy) .dummy,
    .classDef "N" [] [holder "D" "z", number "x" 2, number "fresh" 3] (some "new") .dummy,
    .assign (.attr (.attr (.ident "N" .dummy) "D" .dummy) "up" .dummy) (.ident "N" .dummy) .dummy]

/-- Nothing has been changed. -/
def unchanged : Journaled := ⟨.start rings.heap (rings.heap.module module).scope, rings.heap⟩

theorem unchanged_heap : unchanged.heap = rings.heap := by rw [unchanged]

theorem unchanged_closed : unchanged.heap.Closed := by
  rw [unchanged_heap]
  exact machine_closed _

/-- What can be reached from the class `C`. -/
def ringOf : List Node :=
  [.value (.type ⟨1⟩), .value (.type ⟨0⟩), .value (.str "m"), .value (.str "old"), .value (.int 1),
    .value .none]

/-- What can be reached from the class `N`. -/
def otherRing : List Node :=
  [.value (.type ⟨3⟩), .value (.type ⟨2⟩), .value (.str "m"), .value (.str "new"), .value (.int 1),
    .value (.int 2), .value (.int 3), .value .none]

theorem rings_apart (c : ClassRef) (hc : unchanged.heap.Reaches (.value (.type ⟨1⟩)) (.value (.type c))) :
    ¬ unchanged.heap.Reaches (.value (.type ⟨3⟩)) (.value (.type c)) := by
  intro hd
  have hc : .value (.type c) ∈ ringOf := hc.mem (by decide) (by decide +kernel)
  have hd : .value (.type c) ∈ otherRing := hd.mem (by decide) (by decide +kernel)
  have hc : c = ⟨1⟩ ∨ c = ⟨0⟩ := by simpa [ringOf] using hc
  have hd : c = ⟨3⟩ ∨ c = ⟨2⟩ := by simpa [otherRing] using hd
  rcases hc with rfl | rfl <;> rcases hd with hd | hd <;> cases hd

theorem rings_once ⦃c d d' : ClassRef⦄ (hl : unchanged.heap.Leads ⟨1⟩ ⟨3⟩ c d)
    (hl' : unchanged.heap.Leads ⟨1⟩ ⟨3⟩ c d') : d = d' := by
  have hall : ∀ {c d : ClassRef}, unchanged.heap.Leads ⟨1⟩ ⟨3⟩ c d →
      (c, d) ∈ ([(⟨1⟩, ⟨3⟩), (⟨0⟩, ⟨2⟩)] : List (ClassRef × ClassRef)) :=
    fun hl => hl.mem (by decide) (by decide +kernel)
  exact single_of_mem hall (by decide) hl hl'

end Sample

/-- The class `C` keeps its doc text and its inner class, which has taken over the other inner class. -/
theorem Journaled.updateClass_outcome_rings :
    Journaled.Performs (.type ⟨1⟩ ⟨3⟩) Sample.unchanged (Sample.unchanged.updateClass ⟨1⟩ ⟨3⟩) ∧
      Sample.unchanged.heap.Renews ⟨1⟩ ⟨3⟩ (Sample.unchanged.updateClass ⟨1⟩ ⟨3⟩).heap ∧
      ((Sample.unchanged.updateClass ⟨1⟩ ⟨3⟩).heap.type ⟨1⟩).attrs.entries =
        [("__module__", .str "m"), ("__doc__", .str "old"), ("x", .int 2), ("D", .type ⟨0⟩),
          ("fresh", .int 3)] ∧
      ((Sample.unchanged.updateClass ⟨1⟩ ⟨3⟩).heap.type ⟨0⟩).attrs.entries =
        [("__module__", .str "m"), ("__doc__", .none), ("up", .type ⟨1⟩), ("z", .int 1)] := by
  have hthere : Sample.unchanged.heap.There (.type ⟨1⟩) := ⟨by decide, by decide +kernel⟩
  obtain ⟨hends, hrenews⟩ := Journaled.updateClass_outcome (s := Sample.unchanged) Sample.unchanged_closed
    hthere (fun _ => rfl) Sample.rings_apart
  exact ⟨(hends _).2 rfl, hrenews Sample.rings_once, by decide +kernel, by decide +kernel⟩

end LivePatch
