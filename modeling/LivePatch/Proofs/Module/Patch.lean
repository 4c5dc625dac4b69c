/-
Updating an object in place. The update of a class walks through the classes nested in it, which may
contain one another and may be met more than once; a class is recorded when the walk enters it, and
only classes that are recorded are changed. A law of such walks is stated of the single recording and
the single change of a class; that a whole walk keeps it is proved here, for every law.
-/
import LivePatch.Module.Update
import LivePatch.Proofs.Heap.Region

namespace LivePatch

/-! ## Records -/

namespace Journal

variable (j : Journal) (h : Heap)

theorem hasClass_recordClass_iff {c d : ClassRef} :
    (j.recordClass h c).hasClass d = true ↔ j.hasClass d = true ∨ d = c := by
  unfold recordClass
  split
  · rename_i hc
    refine ⟨.inl, fun hd => ?_⟩
    rcases hd with hd | rfl
    · exact hd
    · exact hc
  · show (decide (c = d) || j.hasClass d) = true ↔ _
    rw [Bool.or_eq_true, decide_eq_true_iff, or_comm, @eq_comm _ c d]

theorem hasClass_recordClass (c : ClassRef) : (j.recordClass h c).hasClass c = true :=
  (j.hasClass_recordClass_iff h).2 (.inr rfl)

theorem hasClass_recordClass_of {c d : ClassRef} (hd : j.hasClass d = true) :
    (j.recordClass h c).hasClass d = true := (j.hasClass_recordClass_iff h).2 (.inl hd)

theorem hasFunction_recordFunction (f : FunctionRef) : (j.recordFunction h f).hasFunction f = true := by
  unfold recordFunction
  split
  · assumption
  · simp [hasFunction, Record.isOfFunction]

@[simp] theorem hasClass_recordFunction (f : FunctionRef) (c : ClassRef) :
    (j.recordFunction h f).hasClass c = j.hasClass c := by
  unfold recordFunction
  split
  · rfl
  · exact Bool.false_or _

@[simp] theorem scope_recordClass (c : ClassRef) : (j.recordClass h c).scope = j.scope := by
  unfold recordClass; split <;> rfl

@[simp] theorem bindings_recordClass (c : ClassRef) : (j.recordClass h c).bindings = j.bindings := by
  unfold recordClass; split <;> rfl

@[simp] theorem scope_recordFunction (f : FunctionRef) : (j.recordFunction h f).scope = j.scope := by
  unfold recordFunction; split <;> rfl

@[simp] theorem bindings_recordFunction (f : FunctionRef) :
    (j.recordFunction h f).bindings = j.bindings := by
  unfold recordFunction; split <;> rfl

end Journal

/-! ## Classes -/

namespace Journaled

/-- A law of the update of a class. -/
structure ClassLaw where
  /-- What holds of journal and heap all along. -/
  inv : Journaled → Prop
  /-- The values that may become attributes of a class. -/
  allowed : Value → Prop
  attr : ∀ {s c x v}, inv s → allowed (.type c) → (s.heap.type c).attrs.get? x = some v → allowed v
  record : ∀ {s c}, inv s → s.journal.hasClass c = false →
    inv ⟨s.journal.recordClass s.heap c, s.heap⟩
  change : ∀ {s c f}, inv s → s.journal.hasClass c = true →
    (∀ b : Bindings Value, ∀ w ∈ (f b).values, w ∈ b.values ∨ allowed w) →
    inv { s with heap := s.heap.modifyAttrs c f }

namespace ClassLaw

variable (L : ClassLaw)

/-- The law still holds, and no record was lost. -/
def Advances (s t : Journaled) : Prop :=
  L.inv t ∧ ∀ c, s.journal.hasClass c = true → t.journal.hasClass c = true

variable {L} {s t u : Journaled} {old new : ClassRef}

theorem Advances.refl (hs : L.inv s) : L.Advances s s := ⟨hs, fun _ h => h⟩

theorem Advances.trans (h₁ : L.Advances s t) (h₂ : L.Advances t u) : L.Advances s u :=
  ⟨h₂.1, fun c hc => h₂.2 c (h₁.2 c hc)⟩

theorem advances_record (hs : L.inv s) {c : ClassRef} (hc : s.journal.hasClass c = false) :
    L.Advances s ⟨s.journal.recordClass s.heap c, s.heap⟩ :=
  ⟨L.record hs hc, fun _ hd => s.journal.hasClass_recordClass_of s.heap hd⟩

theorem advances_insert (hs : L.inv s) (hr : s.journal.hasClass old = true) {v : Value}
    (hv : L.allowed v) (x : Name) :
    L.Advances s { s with heap := s.heap.modifyAttrs old (·.insert x v) } := by
  refine ⟨L.change hs hr fun b w hw => ?_, fun _ h => h⟩
  rcases Bindings.mem_values_insert hw with rfl | hw
  · exact .inr hv
  · exact .inl hw

theorem advances_erase (hs : L.inv s) (hr : s.journal.hasClass old = true) (x : Name) :
    L.Advances s { s with heap := s.heap.modifyAttrs old (·.erase x) } :=
  ⟨L.change hs hr fun _ _ hw => .inl (Bindings.mem_values_erase hw), fun _ h => h⟩

theorem advances_takeAttr (hs : L.inv s) (hr : s.journal.hasClass old = true)
    (hn : L.allowed (.type new)) (x : Name) :
    L.Advances s { s with heap := takeAttr old new s.heap x } := by
  unfold takeAttr
  split
  · rename_i v hv
    exact advances_insert hs hr (L.attr hs hn hv) x
  · exact .refl hs

/-- Steps over some names that advance from every moment at which a class is recorded. -/
theorem advances_foldl {f : Journaled → Name → Journaled} (hs : L.inv s)
    (hr : s.journal.hasClass old = true)
    (hf : ∀ t x, L.inv t → t.journal.hasClass old = true → L.Advances t (f t x)) (xs : List Name) :
    L.Advances s (xs.foldl f s) := by
  refine List.foldlRecOn (motive := fun t => L.Advances s t) xs f (.refl hs) fun t ht x _ => ?_
  exact ht.trans (hf t x ht.1 (ht.2 old hr))

theorem advances_foldl_heap {f : Heap → Name → Heap} (hs : L.inv s)
    (hr : s.journal.hasClass old = true)
    (hf : ∀ t x, L.inv t → t.journal.hasClass old = true →
      L.Advances t { t with heap := f t.heap x }) (xs : List Name) :
    L.Advances s { s with heap := xs.foldl f s.heap } := by
  refine List.foldlRecOn (motive := fun h => L.Advances s { s with heap := h }) xs f (.refl hs)
    fun h ht x _ => ?_
  exact ht.trans (hf _ x ht.1 (ht.2 old hr))

/-- The update of a class keeps every law. -/
theorem updateClassWithin_advances (n : Nat) :
    ∀ {s : Journaled} (old new : ClassRef), L.inv s → L.allowed (.type old) → L.allowed (.type new) →
      L.Advances s (updateClassWithin n old new s) := by
  induction n with
  | zero =>
    intro s old new hs _ _
    rw [updateClassWithin]
    exact .refl hs
  | succ n ih =>
    intro s old new hs ho hn
    rw [updateClassWithin]
    split
    · exact .refl hs
    · rename_i hc
      rw [not_or, Bool.not_eq_true] at hc
      have h₁ := advances_record hs hc.2
      have hr := s.journal.hasClass_recordClass s.heap old
      -- the class is recorded from here on, so that it may be changed
      have h₂ := fun xs => h₁.trans (advances_foldl_heap (f := takeAttr old new) h₁.1 hr
        (fun t x ht hr => advances_takeAttr ht hr hn x) xs)
      have h₃ := fun xs ys => (h₂ xs).trans (advances_foldl_heap
        (f := fun h x => h.modifyAttrs old (·.erase x)) (h₂ xs).1 hr
        (fun t x ht hr => advances_erase ht hr x) ys)
      -- last come the attributes of both, where a class within the class is updated in turn
      refine (h₃ _ _).trans (advances_foldl (h₃ _ _).1 hr (fun t x ht hr => ?_) _)
      split
      · rename_i c d hc hd
        exact ih c d ht (L.attr ht ho hc) (L.attr ht hn hd)
      · rename_i v _ _ hv
        exact advances_insert ht hr (L.attr ht hn hv) x
      · exact .refl ht

theorem updateClass_keeps (hs : L.inv s) (ho : L.allowed (.type old)) (hn : L.allowed (.type new)) :
    L.inv (s.updateClass old new) := (updateClassWithin_advances _ old new hs ho hn).1

end ClassLaw

theorem updateClass_footprint (s : Journaled) (old new : ClassRef) :
    s.heap.Footprint (s.updateClass old new).heap := by
  let L : ClassLaw :=
    { inv := fun t => s.heap.Footprint t.heap
      allowed := fun _ => True
      attr := fun _ _ _ => trivial
      record := fun ht _ => ht
      change := fun ht _ _ => ht.trans (Heap.footprint_modifyAttrs _ _ _) }
  exact L.updateClass_keeps (.refl s.heap) trivial trivial

/-- Only classes change. -/
theorem updateClass_others (s : Journaled) (old new : ClassRef) :
    ∃ classes, (s.updateClass old new).heap = { s.heap with classes } := by
  let L : ClassLaw :=
    { inv := fun t => ∃ classes, t.heap = { s.heap with classes }
      allowed := fun _ => True
      attr := fun _ _ _ => trivial
      record := fun ht _ => ht
      change := fun ⟨classes, ht⟩ _ _ => ⟨_, by rw [ht]; rfl⟩ }
  exact L.updateClass_keeps ⟨s.heap.classes, rfl⟩ trivial trivial

end Journaled

/-! ## Functions -/

/-- The state of a function that is updated: doc text, code and defaults are the new ones, and the new
attributes are put on top of the old ones. -/
def FunctionState.patch (old new : FunctionState) : FunctionState :=
  ⟨new.doc, old.attrs.override new.attrs, new.code, new.defaults⟩

theorem FunctionState.mem_values_patch {old new : FunctionState} {w : Value}
    (hw : w ∈ (old.patch new).values) : w ∈ old.values ∨ w ∈ new.values := by
  rcases List.mem_append.1 hw with hw | hw
  · exact .inr (List.mem_append_left _ hw)
  · rcases Bindings.mem_values_override hw with hw | hw
    · exact .inl (List.mem_append_right _ hw)
    · exact .inr (List.mem_append_right _ hw)

namespace Journaled

theorem updateFunction_cases (s : Journaled) (f g : FunctionRef) :
    s.updateFunction f g = s ∨ s.updateFunction f g = ⟨s.journal.recordFunction s.heap f,
      s.heap.modifyFunction f (·.patch (s.heap.function g).state)⟩ := by
  unfold updateFunction
  split
  · exact .inl rfl
  · exact .inr rfl

theorem updateFunction_persists (s : Journaled) (f g : FunctionRef) :
    s.heap.Persists (s.updateFunction f g).heap ∧
      (s.updateFunction f g).heap.scopes = s.heap.scopes := by
  rcases s.updateFunction_cases f g with e | e
  · rw [e]
    exact ⟨.refl s.heap, rfl⟩
  · rw [e]
    exact ⟨s.heap.persists_modifyFunction f (·.patch (s.heap.function g).state), rfl⟩

end Journaled

/-! ## Objects of any kind -/

/-- A value whose object is updated in place. -/
def Value.Patchable : Value → Prop
  | function _ | method _ | type _ => True
  | none | bool _ | int _ | str _ | builtin _ | object _ => False

def Heap.behind? (h : Heap) : Value → Option FunctionRef
  | .function f => some f
  | .method m => some (h.method m).function
  | .none | .bool _ | .int _ | .str _ | .builtin _ | .type _ | .object _ => none

namespace Update

/-- The ways in which the object behind an old value is updated: as a class, as a function, or not at
all, where the new value takes its place. -/
theorem inPlace_cases (old new : Value) (s : Journaled) :
    (∃ c d, old = .type c ∧ new = .type d ∧ inPlace old new s = (⟨old, .patched⟩, s.updateClass c d)) ∨
      (∃ f g, s.heap.behind? old = some f ∧ s.heap.behind? new = some g ∧
        inPlace old new s = (⟨old, .patched⟩, s.updateFunction f g)) ∨
      inPlace old new s = (⟨new, .rebound⟩, s) := by
  unfold inPlace
  split
  · exact .inl ⟨_, _, rfl, rfl, rfl⟩
  · exact .inr (.inl ⟨_, _, rfl, rfl, rfl⟩)
  · exact .inr (.inl ⟨_, _, rfl, rfl, rfl⟩)
  · exact .inr (.inr rfl)

/-- Between values of one kind it is the kind that decides whether the old object stays. -/
theorem inPlace_update {old new : Value} (hk : old.kind = new.kind) (s : Journaled) :
    (old.Patchable ∧ (inPlace old new s).1 = ⟨old, .patched⟩) ∨
      (¬ old.Patchable ∧ (inPlace old new s).1 = ⟨new, .rebound⟩) := by
  cases old <;> cases new <;> first
    | exact .inl ⟨trivial, rfl⟩
    | exact .inr ⟨id, rfl⟩
    | cases hk

end Update

theorem Update.inPlace_persists (old new : Value) (s : Journaled) :
    s.heap.Persists (inPlace old new s).2.heap ∧
      ∀ r : ScopeRef, r.index < s.heap.scopes.size →
        (inPlace old new s).2.heap.scope r = s.heap.scope r := by
  rcases inPlace_cases old new s with ⟨c, d, -, -, e⟩ | ⟨f, g, -, -, e⟩ | e
  · rw [e]
    have hf := s.updateClass_footprint c d
    exact ⟨hf.persists, fun r hr => hf.scope_eq hr⟩
  · rw [e]
    have hf := s.updateFunction_persists f g
    exact ⟨hf.1, fun r _ => congrArg (Arena.get · r) hf.2⟩
  · rw [e]
    exact ⟨.refl s.heap, fun _ _ => rfl⟩

end LivePatch
