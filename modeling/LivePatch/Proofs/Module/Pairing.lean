/-
Which class is brought up to date with which. The update of a class walks on, through the attributes
in which old and new class both hold a class, to further pairs of classes; an old class is paired with
the first new one the walk comes to, and later ones are passed over. The walk can be followed on the
heap it starts from, without changing anything: old classes that it has not come to are as they were,
and so is everything new. What it leaves behind can therefore be read off the pairs.
-/
import LivePatch.Proofs.Module.Course

namespace LivePatch

namespace Heap

/-- The difference between the attributes of two classes, as an update takes it. -/
def slotDiff (h : Heap) (c d : ClassRef) : NameDiff :=
  (NameDiff.between (h.type c).attrs.names (h.type d).attrs.names preservedSlots).withoutShared
    preservedSlots

/-- The names of the attributes that two classes share and an update overwrites. -/
def sharedSlots (h : Heap) (c d : ClassRef) : List Name := (h.slotDiff c d).shared

/-- The classes that two classes both hold in an attribute. -/
def sharedClasses? (h : Heap) (c d : ClassRef) (x : Name) : Option (ClassRef × ClassRef) :=
  match (h.type c).attrs.get? x, (h.type d).attrs.get? x with
  | some (.type c'), some (.type d') => some (c', d')
  | _, _ => none

/-- The pairs of classes that the update of `c` from `d` comes to, depth first, after others. -/
def pairWithin (h : Heap) : Nat → ClassRef → ClassRef → List (ClassRef × ClassRef) →
    List (ClassRef × ClassRef)
  | 0, _, _, ps => ps
  | n + 1, c, d, ps =>
    if c ∈ ps.map Prod.fst then ps else
    (h.sharedSlots c d).foldl (fun ps x =>
      match h.sharedClasses? c d x with
      | some (c', d') => pairWithin h n c' d' ps
      | none => ps) (ps ++ [(c, d)])

/-- What an attribute of `c` is when `c` has been updated from `d`. -/
def slotAfter (h : Heap) (c d : ClassRef) (x : Name) : Option Value :=
  if x ∈ preservedSlots ∧ ((h.type c).attrs.get? x).isSome then (h.type c).attrs.get? x
  else
    match h.sharedClasses? c d x with
    | some (c', _) => some (.type c')
    | none => (h.type d).attrs.get? x

/-- On a later heap the first class of a pair has the attributes that the second gives it. -/
def Took (h : Heap) (p : ClassRef × ClassRef) (k : Heap) : Prop :=
  ∀ x, (k.type p.1).attrs.get? x = h.slotAfter p.1 p.2 x

/-- The update of `c` from `d` may come to the two classes. -/
inductive Leads (h : Heap) (c d : ClassRef) : ClassRef → ClassRef → Prop
  | here : Leads h c d c d
  | slot {e k e' k' : ClassRef} {x : Name} (hl : Leads h c d e k) (hx : x ∈ h.sharedSlots e k)
      (hs : h.sharedClasses? e k x = some (e', k')) : Leads h c d e' k'

variable {h k : Heap}

theorem modifyAttrs_modifyAttrs (c : ClassRef) (f g : Bindings Value → Bindings Value) :
    (h.modifyAttrs c f).modifyAttrs c g = h.modifyAttrs c fun b => g (f b) :=
  congrArg (fun a => { h with classes := a }) (Arena.modify_modify h.classes c _ _)

theorem modifyAttrs_id (c : ClassRef) : h.modifyAttrs c (fun b => b) = h :=
  congrArg (fun a => { h with classes := a }) (Arena.modify_id h.classes c)

theorem mem_sharedSlots {c d : ClassRef} {x : Name} :
    x ∈ h.sharedSlots c d ↔
      x ∈ (h.type c).attrs.names ∧ x ∈ (h.type d).attrs.names ∧ x ∉ preservedSlots := by
  unfold sharedSlots slotDiff NameDiff.withoutShared NameDiff.between
  simp [and_comm]

theorem sharedClasses?_of_some {c d c' d' : ClassRef} {x : Name}
    (hc : (h.type c).attrs.get? x = some (.type c')) (hd : (h.type d).attrs.get? x = some (.type d')) :
    h.sharedClasses? c d x = some (c', d') := by
  unfold sharedClasses?
  rw [hc, hd]

theorem sharedClasses?_eq_some {c d c' d' : ClassRef} {x : Name}
    (hs : h.sharedClasses? c d x = some (c', d')) :
    (h.type c).attrs.get? x = some (.type c') ∧ (h.type d).attrs.get? x = some (.type d') := by
  unfold sharedClasses? at hs
  split at hs
  · rename_i e k hc hd
    cases hs
    exact ⟨hc, hd⟩
  · cases hs

/-- Where both hold a class, the old one stays. -/
theorem slotAfter_nested {c d c' d' : ClassRef} {x : Name} (hx : x ∈ h.sharedSlots c d)
    (hs : h.sharedClasses? c d x = some (c', d')) : h.slotAfter c d x = some (.type c') := by
  unfold slotAfter
  rw [if_neg fun hp => (mem_sharedSlots.1 hx).2.2 hp.1, hs]

theorem slotAfter_taken {c d : ClassRef} {x : Name} (hx : x ∈ h.sharedSlots c d)
    (hs : h.sharedClasses? c d x = none) : h.slotAfter c d x = (h.type d).attrs.get? x := by
  unfold slotAfter
  rw [if_neg fun hp => (mem_sharedSlots.1 hx).2.2 hp.1, hs]

theorem Leads.trans {c d e k e' k' : ClassRef} (hl : h.Leads c d e k) (hl' : h.Leads e k e' k') :
    h.Leads c d e' k' := by
  induction hl' with
  | here => exact hl
  | slot _ hx hs ih => exact .slot ih hx hs

theorem mem_pairWithin_of_mem : ∀ (n : Nat) {c d : ClassRef} {ps : List (ClassRef × ClassRef)}
    {p : ClassRef × ClassRef}, p ∈ ps → p ∈ h.pairWithin n c d ps
  | 0, _, _, _, _, hp => hp
  | n + 1, c, d, ps, p, hp => by
    rw [pairWithin]
    split
    · exact hp
    · refine List.foldlRecOn (motive := fun qs => p ∈ qs) _ _ (List.mem_append_left _ hp) ?_
      intro qs hqs x _
      split
      · exact mem_pairWithin_of_mem n hqs
      · exact hqs

/-- The first pair that the update comes to is its own, unless the old class has been paired before. -/
theorem mem_pairWithin_self (n : Nat) {c : ClassRef} (d : ClassRef) {ps : List (ClassRef × ClassRef)}
    (hc : c ∉ ps.map Prod.fst) : (c, d) ∈ h.pairWithin (n + 1) c d ps := by
  rw [pairWithin, if_neg hc]
  refine List.foldlRecOn (motive := fun qs => (c, d) ∈ qs) _ _ (by simp) ?_
  intro qs hqs x _
  split
  · exact mem_pairWithin_of_mem n hqs
  · exact hqs

/-- Only pairs to which the update may come are added. -/
theorem leads_of_mem_pairWithin : ∀ (n : Nat) {c d : ClassRef} {ps : List (ClassRef × ClassRef)}
    {p : ClassRef × ClassRef}, p ∈ h.pairWithin n c d ps → p ∈ ps ∨ h.Leads c d p.1 p.2
  | 0, _, _, _, _, hp => .inl hp
  | n + 1, c, d, ps, p, hp => by
    rw [pairWithin] at hp
    split at hp
    · exact .inl hp
    · have hfold : ∀ q ∈ (h.sharedSlots c d).foldl (fun ps x =>
          match h.sharedClasses? c d x with
          | some (c', d') => h.pairWithin n c' d' ps
          | none => ps) (ps ++ [(c, d)]), q ∈ ps ∨ h.Leads c d q.1 q.2 := by
        refine List.foldlRecOn (motive := fun qs => ∀ q ∈ qs, q ∈ ps ∨ h.Leads c d q.1 q.2) _ _ ?_ ?_
        · intro q hq
          rcases List.mem_append.1 hq with hq | hq
          · exact .inl hq
          · cases List.mem_singleton.1 hq
            exact .inr .here
        · intro qs hqs x hx q hq
          split at hq
          · rename_i c' d' hs
            rcases leads_of_mem_pairWithin n hq with hq | hq
            · exact hqs q hq
            · exact .inr (.trans (.slot .here hx hs) hq)
          · exact hqs q hq
      exact hfold p hp

end Heap

namespace Journaled

/-! ## Attributes that come and go -/

theorem foldl_takeAttr {c d : ClassRef} (hne : d ≠ c) (xs : List Name) (h : Heap) :
    xs.foldl (takeAttr c d) h = h.modifyAttrs c (·.adopt (h.type d).attrs xs) := by
  induction xs generalizing h with
  | nil => exact (h.modifyAttrs_id c).symm
  | cons x xs ih =>
    rw [List.foldl_cons, ih]
    unfold takeAttr
    cases hx : (h.type d).attrs.get? x with
    | none =>
      congr 1
      funext b
      exact (b.adopt_cons_none _ xs hx).symm
    | some v =>
      rw [h.type_modifyAttrs_of_ne hne, h.modifyAttrs_modifyAttrs]
      congr 1
      funext b
      exact (b.adopt_cons _ xs hx).symm

theorem foldl_erase (c : ClassRef) (xs : List Name) (h : Heap) :
    xs.foldl (fun h x => h.modifyAttrs c (·.erase x)) h = h.modifyAttrs c (·.eraseAll xs) := by
  induction xs generalizing h with
  | nil => exact (h.modifyAttrs_id c).symm
  | cons x xs ih =>
    rw [List.foldl_cons, ih]
    exact h.modifyAttrs_modifyAttrs c _ _

/-! ## One class -/

/-- The update of a class up to the attributes that it shares with its new version: the class is recorded, it
has the attributes that are new, and those that are missing are gone. -/
def entered (s : Journaled) (c d : ClassRef) : Journaled :=
  ⟨s.journal.recordClass s.heap c, (s.heap.slotDiff c d).removed.foldl (fun h x => h.modifyAttrs c (·.erase x))
    ((s.heap.slotDiff c d).added.foldl (takeAttr c d) s.heap)⟩

theorem entered_eq {c d : ClassRef} (hne : d ≠ c) (s : Journaled) :
    s.entered c d = ⟨s.journal.recordClass s.heap c,
      s.heap.modifyAttrs c (Merge.openingBindings (s.heap.slotDiff c d) (s.heap.type d).attrs)⟩ := by
  unfold entered
  rw [foldl_takeAttr hne, foldl_erase, Heap.modifyAttrs_modifyAttrs]
  rfl

/-- A shared attribute gets the value of the new class. -/
def takeSlot (s : Journaled) (c d : ClassRef) (x : Name) : Journaled :=
  match (s.heap.type c).attrs.get? x, (s.heap.type d).attrs.get? x with
  | some _, some v => { s with heap := s.heap.modifyAttrs c (·.insert x v) }
  | _, _ => s

/-- One shared attribute is dealt with. When both classes hold a class in it, the update goes on to these
two. -/
def nextSlot (update : ClassRef → ClassRef → Journaled → Journaled) (c d : ClassRef) (s : Journaled)
    (x : Name) : Journaled :=
  match s.heap.sharedClasses? c d x with
  | some (e, k) => update e k s
  | none => s.takeSlot c d x

theorem nextSlot_eq (update : ClassRef → ClassRef → Journaled → Journaled) (c d : ClassRef) (s : Journaled)
    (x : Name) : nextSlot update c d s x =
      match (s.heap.type c).attrs.get? x, (s.heap.type d).attrs.get? x with
      | some (.type e), some (.type k) => update e k s
      | some _, some v => { s with heap := s.heap.modifyAttrs c (·.insert x v) }
      | _, _ => s := by
  unfold nextSlot Heap.sharedClasses? takeSlot
  cases (s.heap.type c).attrs.get? x with
  | none => rfl
  | some v =>
    cases (s.heap.type d).attrs.get? x with
    | none => cases v <;> rfl
    | some w => cases v <;> cases w <;> rfl

theorem updateClassWithin_succ (n : Nat) (c d : ClassRef) (s : Journaled) :
    updateClassWithin (n + 1) c d s =
      if c = d ∨ s.journal.hasClass c = true then s
      else (s.heap.sharedSlots c d).foldl (nextSlot (updateClassWithin n) c d) (s.entered c d) := by
  rw [updateClassWithin, funext fun t => funext (nextSlot_eq (updateClassWithin n) c d t)]
  rfl

/-- The attributes with which the walk through a class begins: new ones are there, and missing ones are
gone. -/
def slotsBefore (h : Heap) (c d : ClassRef) : Bindings Value :=
  Merge.openingBindings (h.slotDiff c d) (h.type d).attrs (h.type c).attrs

/-- The attributes when some of those that the two classes share have been dealt with. -/
def slotsDuring (h : Heap) (c d : ClassRef) (done : List Name) : Bindings Value :=
  (slotsBefore h c d).adopt (h.type d).attrs (done.filter fun x => (h.sharedClasses? c d x).isNone)

/-- The attributes of `c` when `c` has been updated from `d`. -/
def slotsAfter (h : Heap) (c d : ClassRef) : Bindings Value := slotsDuring h c d (h.sharedSlots c d)

theorem get?_slotsBefore (h : Heap) (c d : ClassRef) (x : Name) :
    (slotsBefore h c d).get? x =
      if x ∈ (h.type c).attrs.names ∧ x ∉ (h.type d).attrs.names ∧ x ∉ preservedSlots then none
      else if x ∈ (h.type d).attrs.names ∧ x ∉ (h.type c).attrs.names then (h.type d).attrs.get? x
      else (h.type c).attrs.get? x := by
  unfold slotsBefore Merge.openingBindings
  rw [Bindings.get?_eraseAll, Bindings.get?_adopt]
  simp only [Heap.slotDiff, NameDiff.withoutShared, NameDiff.mem_removed, NameDiff.mem_added]
  split
  · rfl
  · split
    · rename_i hx
      obtain ⟨v, hv⟩ := Option.isSome_iff_exists.1 ((Bindings.mem_names_iff _ x).1 hx.1)
      rw [hv]
      rfl
    · rfl

section

variable {h : Heap} {c d : ClassRef} {x : Name}

/-- A shared attribute is still the old one. -/
theorem slotsBefore_of_shared (hx : x ∈ h.sharedSlots c d) :
    (slotsBefore h c d).get? x = (h.type c).attrs.get? x := by
  obtain ⟨hc, hd, -⟩ := Heap.mem_sharedSlots.1 hx
  rw [get?_slotsBefore, if_neg fun hn => hn.2.1 hd, if_neg fun hn => hn.2 hc]

/-- Any other attribute is already what it is going to be. -/
theorem slotsBefore_of_not_shared (hx : x ∉ h.sharedSlots c d) :
    (slotsBefore h c d).get? x = h.slotAfter c d x := by
  rw [Heap.mem_sharedSlots] at hx
  rw [get?_slotsBefore]
  unfold Heap.slotAfter Heap.sharedClasses?
  simp only [Bindings.mem_names_iff] at hx ⊢
  cases hc : (h.type c).attrs.get? x <;> cases hd : (h.type d).attrs.get? x <;> simp_all

/-- An attribute that has not been dealt with is as it was to begin with. -/
theorem get?_slotsDuring {done : List Name} (hx : x ∉ done) :
    (slotsDuring h c d done).get? x = (slotsBefore h c d).get? x := by
  unfold slotsDuring
  rw [Bindings.get?_adopt, if_neg fun hm => hx (List.mem_filter.1 hm).1]

/-- Where both hold a class, nothing changes. -/
theorem slotsDuring_nested (done : List Name) {p : ClassRef × ClassRef} (hs : h.sharedClasses? c d x = some p) :
    slotsDuring h c d (done ++ [x]) = slotsDuring h c d done := by
  unfold slotsDuring
  rw [List.filter_append, List.filter_cons_of_neg (by simp [hs]), List.filter_nil, List.append_nil]

theorem slotsDuring_taken (done : List Name) (hs : h.sharedClasses? c d x = none) {v : Value}
    (hv : (h.type d).attrs.get? x = some v) :
    slotsDuring h c d (done ++ [x]) = (slotsDuring h c d done).insert x v := by
  unfold slotsDuring
  rw [List.filter_append, List.filter_cons_of_pos (by simp [hs]), List.filter_nil, Bindings.adopt_append,
    Bindings.adopt_cons _ _ _ hv]
  rfl

theorem get?_slotsAfter (h : Heap) (c d : ClassRef) (x : Name) :
    (slotsAfter h c d).get? x = h.slotAfter c d x := by
  have htaken : x ∈ (h.sharedSlots c d).filter (fun x => (h.sharedClasses? c d x).isNone) ↔
      x ∈ h.sharedSlots c d ∧ h.sharedClasses? c d x = none := by
    rw [List.mem_filter, Option.isNone_iff_eq_none]
  unfold slotsAfter slotsDuring
  rw [Bindings.get?_adopt]
  by_cases hx : x ∈ h.sharedSlots c d
  · cases hs : h.sharedClasses? c d x with
    | none =>
      have hd := (Bindings.mem_names_iff _ x).1 (Heap.mem_sharedSlots.1 hx).2.1
      obtain ⟨v, hv⟩ := Option.isSome_iff_exists.1 hd
      rw [if_pos (htaken.2 ⟨hx, hs⟩), Heap.slotAfter_taken hx hs, hv]
      rfl
    | some p =>
      have hno : ¬ h.sharedClasses? c d x = none := by
        rw [hs]
        nofun
      rw [if_neg fun hm => hno (htaken.1 hm).2, slotsBefore_of_shared hx, Heap.slotAfter_nested hx hs]
      exact (Heap.sharedClasses?_eq_some hs).1
  · rw [if_neg fun hm => hx (htaken.1 hm).1, slotsBefore_of_not_shared hx]

/-- The names that the old class keeps come first, in their order. -/
theorem names_slotsAfter (h : Heap) (c d : ClassRef) :
    (slotsAfter h c d).names =
      (h.type c).attrs.names.filter (fun x => x ∈ (h.type d).attrs.names ∨ x ∈ preservedSlots) ++
        (h.type d).attrs.names.filter (· ∉ (h.type c).attrs.names) := by
  have hopening : (slotsBefore h c d).names = _ :=
    Merge.names_openingBindings (h.type c).attrs (h.type d).attrs preservedSlots
  unfold slotsAfter slotsDuring
  rw [Bindings.names_adopt_of_mem, hopening]
  · congr 1
    · refine List.filter_congr fun x hx => ?_
      rw [decide_eq_decide, NameDiff.mem_removed]
      simp only [hx, true_and]
      rw [not_and_or, Classical.not_not, Classical.not_not]
    · unfold NameDiff.between
      simp
  · intro x hx
    have hx := (List.mem_filter.1 hx).1
    rw [Bindings.mem_names_iff, slotsBefore_of_shared hx, ← Bindings.mem_names_iff]
    exact (Heap.mem_sharedSlots.1 hx).1

end

/-- On a later heap the first class of a pair has just the attributes that the second gives it. -/
def Updated (h : Heap) (p : ClassRef × ClassRef) (k : Heap) : Prop :=
  (k.type p.1).attrs = slotsAfter h p.1 p.2

theorem Updated.took {h k : Heap} {p : ClassRef × ClassRef} (hu : Updated h p k) : h.Took p k := by
  intro x
  rw [show (k.type p.1).attrs = _ from hu]
  exact get?_slotsAfter h p.1 p.2 x

/-! ## The walk -/

section Walk

variable {h : Heap} {P : ClassRef → ClassRef → Prop} {ps qs os : List (ClassRef × ClassRef)}
  {s t u : Journaled} {c d : ClassRef} {done : List Name} {x : Name}

/-- A set of pairs that a walk does not leave. Each old class is there, and none is a new one as well, so
that the walk changes nothing new. -/
structure Walkable (h : Heap) (P : ClassRef → ClassRef → Prop) : Prop where
  there : ∀ {c d}, P c d → c.index < h.classes.size
  apart : ∀ {c d e k}, P c d → P e k → e ≠ d
  slot : ∀ {c d e k x}, P c d → x ∈ h.sharedSlots c d → h.sharedClasses? c d x = some (e, k) → P e k

/-- The heap `h` after the update of the old classes in some pairs: the others are as they were. -/
structure Walked (h : Heap) (P : ClassRef → ClassRef → Prop) (ps : List (ClassRef × ClassRef))
    (s : Journaled) : Prop where
  visited : ∀ c, s.journal.hasClass c = true ↔ c ∈ ps.map Prod.fst
  pristine : ∀ c, c ∉ ps.map Prod.fst → s.heap.type c = h.type c
  nodup : (ps.map Prod.fst).Nodup
  paired : ∀ p ∈ ps, P p.1 p.2
  size : s.heap.classes.size = h.classes.size

/-- From one moment of the walk to a later one: the pairs that have come since have been dealt with, and
those that were there are left alone. -/
structure Onward (h : Heap) (P : ClassRef → ClassRef → Prop) (ps : List (ClassRef × ClassRef)) (s : Journaled)
    (qs : List (ClassRef × ClassRef)) (t : Journaled) : Prop where
  walked : Walked h P qs t
  more : ∃ rs, qs = ps ++ rs ∧ ∀ p ∈ rs, Updated h p t.heap
  kept : ∀ c ∈ ps.map Prod.fst, t.heap.type c = s.heap.type c

/-- A class that is no old class of a pair is as it was. -/
theorem Walked.other (hw : Walked h P ps s) (hd : ∀ {e k}, P e k → e ≠ d) : s.heap.type d = h.type d := by
  refine hw.pristine d fun hm => ?_
  obtain ⟨p, hp, hpd⟩ := List.mem_map.1 hm
  exact hd (hw.paired p hp) hpd

theorem Onward.refl (hw : Walked h P ps s) : Onward h P ps s ps s :=
  ⟨hw, ⟨[], (List.append_nil _).symm, fun _ hp => by cases hp⟩, fun _ _ => rfl⟩

/-- What has been dealt with stays so. -/
theorem Onward.updated (ho : Onward h P ps s qs t) {rs : List (ClassRef × ClassRef)}
    (hrs : ∀ p ∈ rs, p.1 ∈ ps.map Prod.fst) (ht : ∀ p ∈ rs, Updated h p s.heap) :
    ∀ p ∈ rs, Updated h p t.heap := by
  intro p hp
  unfold Updated
  rw [ho.kept p.1 (hrs p hp)]
  exact ht p hp

/-- While the walk is in a class `c`, whose new version is `d`, and has dealt with some of the attributes
that the two share. -/
structure Inside (h : Heap) (P : ClassRef → ClassRef → Prop) (ps : List (ClassRef × ClassRef)) (s : Journaled)
    (c d : ClassRef) (done : List Name) (qs : List (ClassRef × ClassRef)) (t : Journaled) : Prop where
  walked : Walked h P qs t
  more : ∃ rs, qs = ps ++ (c, d) :: rs ∧ ∀ p ∈ rs, Updated h p t.heap
  kept : ∀ e ∈ ps.map Prod.fst, t.heap.type e = s.heap.type e
  slots : (t.heap.type c).attrs = slotsDuring h c d done

theorem Inside.mem (hin : Inside h P ps s c d done qs t) : c ∈ qs.map Prod.fst := by
  obtain ⟨rs, rfl, -⟩ := hin.more
  simp

/-- A pair whose old class the walk has not come to has the attributes that it had. -/
theorem Walked.slotDiff_eq (hw : Walked h P ps s) (hP : Walkable h P) (hcd : P c d)
    (hnew : c ∉ ps.map Prod.fst) : s.heap.slotDiff c d = h.slotDiff c d := by
  unfold Heap.slotDiff
  rw [hw.pristine c hnew, hw.other (hP.apart hcd)]

theorem Walked.entered_eq (hw : Walked h P ps s) (hP : Walkable h P) (hcd : P c d)
    (hnew : c ∉ ps.map Prod.fst) : s.entered c d = ⟨s.journal.recordClass s.heap c,
      s.heap.modifyAttrs c (Merge.openingBindings (h.slotDiff c d) (h.type d).attrs)⟩ := by
  rw [Journaled.entered_eq (hP.apart hcd hcd).symm, hw.slotDiff_eq hP hcd hnew, hw.other (hP.apart hcd)]

/-- The walk comes to a class that it has not come to before. -/
theorem Inside.start (hw : Walked h P ps s) (hP : Walkable h P) (hcd : P c d) (hnew : c ∉ ps.map Prod.fst) :
    Inside h P ps s c d [] (ps ++ [(c, d)]) (s.entered c d) where
  walked := by
    rw [hw.entered_eq hP hcd hnew]
    refine ⟨fun e => ?_, fun e he => ?_, ?_, fun p hp => ?_, ?_⟩
    · rw [Journal.hasClass_recordClass_iff, hw.visited, List.map_append, List.mem_append]
      exact or_congr_right List.mem_singleton.symm
    · rw [List.map_append, List.mem_append, not_or] at he
      rw [Heap.type_modifyAttrs_of_ne _ fun hec => he.2 (List.mem_singleton.2 hec)]
      exact hw.pristine e he.1
    · rw [List.map_append, List.nodup_append]
      refine ⟨hw.nodup, by simp, fun a ha b hb hab => hnew ?_⟩
      have hbc : b = c := List.mem_singleton.1 hb
      rw [← hbc, ← hab]
      exact ha
    · rcases List.mem_append.1 hp with hp | hp
      · exact hw.paired p hp
      · rw [List.mem_singleton.1 hp]
        exact hcd
    · rw [← hw.size]
      exact Arena.size_modify _ _ _
  more := ⟨[], rfl, fun _ hp => by cases hp⟩
  kept e he := by
    rw [hw.entered_eq hP hcd hnew]
    exact Heap.type_modifyAttrs_of_ne _ (fun hec : e = c => hnew (hec ▸ he)) _
  slots := by
    have hlt : c.index < s.heap.classes.size := by
      rw [hw.size]
      exact hP.there hcd
    rw [hw.entered_eq hP hcd hnew, Heap.type_modifyAttrs_self _ hlt, hw.pristine c hnew]
    rfl

/-- In an attribute in which both hold a class, the walk goes on to these two, and the old one stays where
it is. -/
theorem Inside.nested (hin : Inside h P ps s c d done qs t) (ho : Onward h P qs t os u)
    {p : ClassRef × ClassRef} (hs : h.sharedClasses? c d x = some p) :
    Inside h P ps s c d (done ++ [x]) os u := by
  have hkept := ho.kept c hin.mem
  obtain ⟨rs, rfl, hrs⟩ := hin.more
  refine ⟨ho.walked, ?_, fun e he => ?_, ?_⟩
  · obtain ⟨rs', rfl, hrs'⟩ := ho.more
    refine ⟨rs ++ rs', by simp, fun p hp => ?_⟩
    rcases List.mem_append.1 hp with hp | hp
    · exact ho.updated (fun q hq => List.mem_map_of_mem (by simp [hq])) hrs p hp
    · exact hrs' p hp
  · rw [ho.kept e (by simp [he]), hin.kept e he]
  · rw [hkept, hin.slots, slotsDuring_nested done hs]

/-- In any other shared attribute, the value of the new class is taken over. -/
theorem Inside.insert (hin : Inside h P ps s c d done qs t) (hP : Walkable h P) (hcd : P c d)
    (hs : h.sharedClasses? c d x = none) {v : Value} (hv : (h.type d).attrs.get? x = some v) :
    Inside h P ps s c d (done ++ [x]) qs { t with heap := t.heap.modifyAttrs c (·.insert x v) } := by
  have hmem := hin.mem
  have hlt : c.index < t.heap.classes.size := by
    rw [hin.walked.size]
    exact hP.there hcd
  obtain ⟨rs, rfl, hrs⟩ := hin.more
  have hnodup := hin.walked.nodup
  rw [List.map_append, List.map_cons, List.nodup_append, List.nodup_cons] at hnodup
  refine ⟨⟨hin.walked.visited, fun e he => ?_, hin.walked.nodup, hin.walked.paired, ?_⟩,
    ⟨rs, rfl, fun p hp => ?_⟩, fun e he => ?_, ?_⟩
  · rw [Heap.type_modifyAttrs_of_ne _ fun hec : e = c => he (hec ▸ hmem)]
    exact hin.walked.pristine e he
  · rw [← hin.walked.size]
    exact Arena.size_modify _ _ _
  · -- the classes that have been dealt with are others
    have hmem : p.1 ∈ rs.map Prod.fst := List.mem_map_of_mem hp
    have hpc : p.1 ≠ c := fun hpc => hnodup.2.1.1 (hpc ▸ hmem)
    unfold Updated
    rw [Heap.type_modifyAttrs_of_ne _ hpc]
    exact hrs p hp
  · have hec : e ≠ c := fun hec => hnodup.2.2 e he c (List.mem_cons_self ..) hec
    rw [Heap.type_modifyAttrs_of_ne _ hec]
    exact hin.kept e he
  · rw [Heap.type_modifyAttrs_self _ hlt, slotsDuring_taken done hs hv, ← hin.slots]

theorem Inside.finish (hin : Inside h P ps s c d (h.sharedSlots c d) qs t) : Onward h P ps s qs t := by
  obtain ⟨rs, rfl, hrs⟩ := hin.more
  refine ⟨hin.walked, ⟨(c, d) :: rs, rfl, fun p hp => ?_⟩, hin.kept⟩
  rcases List.mem_cons.1 hp with rfl | hp
  · exact hin.slots
  · exact hrs p hp

end Walk

/-! ## The whole walk -/

section Whole

variable {h : Heap} {P : ClassRef → ClassRef → Prop}

/-- One shared attribute after the other is dealt with. -/
theorem Inside.loop {update : ClassRef → ClassRef → Journaled → Journaled} {n : Nat} (hP : Walkable h P)
    {c d : ClassRef} {ps : List (ClassRef × ClassRef)} {s : Journaled} (hcd : P c d)
    (ih : ∀ {c' d' : ClassRef} {qs : List (ClassRef × ClassRef)} {t : Journaled},
      P c' d' → Walked h P qs t → Onward h P qs t (h.pairWithin n c' d' qs) (update c' d' t)) :
    ∀ (xs done : List Name) {qs : List (ClassRef × ClassRef)} {t : Journaled},
      h.sharedSlots c d = done ++ xs → Inside h P ps s c d done qs t →
      Inside h P ps s c d (done ++ xs)
        (xs.foldl (fun qs x =>
          match h.sharedClasses? c d x with
          | some (c', d') => h.pairWithin n c' d' qs
          | none => qs) qs)
        (xs.foldl (nextSlot update c d) t)
  | [], done, qs, t, _, hin => by
    rw [List.append_nil]
    exact hin
  | x :: xs, done, qs, t, hs, hin => by
    have hx : x ∈ h.sharedSlots c d := by rw [hs]; simp
    have hdone : x ∉ done := by
      have hnd : (done ++ x :: xs).Nodup := by
        rw [← hs]
        exact ((Bindings.nodup _).filter _).filter _
      exact fun hm => (List.nodup_append.1 hnd).2.2 x hm x (List.mem_cons_self ..) rfl
    -- the attribute is the old one in the old class and the new one in the new class
    have hcx : (t.heap.type c).attrs.get? x = (h.type c).attrs.get? x := by
      rw [hin.slots, get?_slotsDuring hdone, slotsBefore_of_shared hx]
    have hdx : (t.heap.type d).attrs.get? x = (h.type d).attrs.get? x := by
      rw [hin.walked.other (hP.apart hcd)]
    have hcl : t.heap.sharedClasses? c d x = h.sharedClasses? c d x := by
      unfold Heap.sharedClasses?
      rw [hcx, hdx]
    rw [show done ++ x :: xs = done ++ [x] ++ xs by simp] at hs ⊢
    rw [List.foldl_cons, List.foldl_cons]
    refine Inside.loop hP hcd ih xs (done ++ [x]) hs ?_
    unfold nextSlot
    rw [hcl]
    cases hcl : h.sharedClasses? c d x with
    | some p => exact hin.nested (ih (hP.slot hcd hx hcl) hin.walked) hcl
    | none =>
      obtain ⟨hcm, hdm, -⟩ := Heap.mem_sharedSlots.1 hx
      rw [Bindings.mem_names_iff, Option.isSome_iff_exists] at hcm hdm
      obtain ⟨v, hv⟩ := hcm
      obtain ⟨w, hw⟩ := hdm
      unfold takeSlot
      rw [hcx, hdx, hv, hw]
      exact hin.insert hP hcd hcl hw

/-- The update of a class comes to the pairs that can be read off the heap before, and leaves the
classes in them as it should. -/
theorem updateClassWithin_onward (hP : Walkable h P) :
    ∀ (n : Nat) {c d : ClassRef} {ps : List (ClassRef × ClassRef)} {s : Journaled},
      P c d → Walked h P ps s →
      Onward h P ps s (h.pairWithin n c d ps) (updateClassWithin n c d s)
  | 0, c, d, ps, s, _, hw => .refl hw
  | n + 1, c, d, ps, s, hcd, hw => by
    have hne : d ≠ c := (hP.apart hcd hcd).symm
    rw [updateClassWithin_succ, Heap.pairWithin]
    by_cases hmem : c ∈ ps.map Prod.fst
    · rw [if_pos hmem, if_pos (.inr ((hw.visited c).2 hmem))]
      exact .refl hw
    · have hvisit : ¬ (c = d ∨ s.journal.hasClass c = true) := by
        rintro (hcd | hv)
        · exact hne hcd.symm
        · exact hmem ((hw.visited c).1 hv)
      rw [if_neg hmem, if_neg hvisit]
      rw [show s.heap.sharedSlots c d = h.sharedSlots c d from
        congrArg NameDiff.shared (hw.slotDiff_eq hP hcd hmem)]
      exact (Inside.loop hP hcd (fun h₁ h₂ => updateClassWithin_onward hP n h₁ h₂) _ [] rfl
        (Inside.start hw hP hcd hmem)).finish

end Whole

/-! ## The pairs of a merge -/

section Merging

variable {pre h : Heap} {scope : ScopeRef} {ps : List (ClassRef × ClassRef)} {s : Journaled} {c d : ClassRef}

/-- The first class was there before a unit ran, and the second has come since. -/
def Straddles (pre h : Heap) (c d : ClassRef) : Prop :=
  c.index < pre.classes.size ∧ (Value.type d).MadeBetween pre h

theorem Straddles.ne (hcd : Straddles pre h c d) {k : ClassRef} (hk : (Value.type k).MadeBetween pre h) :
    c ≠ k := by
  rintro rfl
  exact Nat.not_lt.2 hk.1 hcd.1

/-- New classes are as they were. -/
theorem Walked.new (hw : Walked h (Straddles pre h) ps s) (hd : (Value.type d).MadeBetween pre h) :
    s.heap.type d = h.type d := hw.other fun he => he.ne hd

/-- Classes that were there hold only what was there. -/
theorem old_slot (hc : pre.Closed) (hi : Isolated pre scope h) {e : ClassRef}
    (hlt : c.index < pre.classes.size) {x : Name} (hx : (h.type c).attrs.get? x = some (.type e)) :
    e.index < pre.classes.size := by
  rw [show h.type c = pre.type c from hi.kept.classes.get c hlt] at hx
  have hin : (Value.type c).MadeBetween .empty pre := ⟨Nat.zero_le _, hlt⟩
  have he := hc.refs (a := .value (.type c)) hin (.value (.type e))
    (List.mem_append_right _ (List.mem_map_of_mem (Bindings.mem_values_of_get? hx)))
  exact he.2

/-- Classes of the unit hold only what the unit has made. -/
theorem new_slot (hi : Isolated pre scope h) {e : ClassRef} (hd : (Value.type d).MadeBetween pre h)
    {x : Name} (hx : (h.type d).attrs.get? x = some (.type e)) : (Value.type e).MadeBetween pre h :=
  hi.closed.refs (a := .value (.type d)) hd (.value (.type e))
    (List.mem_append_right _ (List.mem_map_of_mem (Bindings.mem_values_of_get? hx)))

theorem Straddles.walkable (hc : pre.Closed) (hi : Isolated pre scope h) : Walkable h (Straddles pre h) where
  there hcd := Nat.lt_of_lt_of_le hcd.1 hi.kept.classes.size
  apart hcd hek := hek.ne hcd.2
  slot hcd _ hs := by
    obtain ⟨hc', hd'⟩ := Heap.sharedClasses?_eq_some hs
    exact ⟨old_slot hc hi hcd.1 hc', new_slot hi hcd.2 hd'⟩

end Merging

end Journaled

end LivePatch
