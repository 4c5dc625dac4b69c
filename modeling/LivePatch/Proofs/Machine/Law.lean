/-
Laws of running code. A law says what holds of the heap all along, how the heap may change, and which
values code may come to hold. It is stated of the single operations on the heap, the reading of an
object, the making of one and the few changes that code can make; that expressions, statements, calls
and whole units keep it is proved once, here, for every law.
-/
import LivePatch.Machine.Call
import LivePatch.Proofs.Heap.Region

namespace LivePatch

def Value.IsScalar : Value → Prop
  | none | bool _ | int _ | str _ | builtin _ => True
  | function _ | method _ | type _ | object _ => False

/-- A law of running code. -/
structure Law where
  /-- What holds of the heap all along. -/
  inv : Heap → Prop
  /-- How the heap may change from one moment to a later one. -/
  step : Heap → Heap → Prop
  /-- The values that code may hold, and the namespaces where it may look for names. -/
  holds : Heap → Node → Prop
  /-- The namespaces in which a module's own code may bind names. -/
  binds : ScopeRef → Prop
  refl : ∀ h, step h h
  trans : ∀ {h k l}, step h k → step k l → step h l
  later : ∀ {h k a}, step h k → holds h a → holds k a
  scalar : ∀ h {v : Value}, v.IsScalar → holds h (.value v)
  refs : ∀ {h a}, inv h → holds h a → ∀ b ∈ h.refs a, holds h b
  newFunction : ∀ {h} {o : FunctionObject}, inv h → (∀ b ∈ o.refs, holds h b) →
    inv (h.newFunction o).2 ∧ step h (h.newFunction o).2 ∧
      holds (h.newFunction o).2 (.value (.function (h.newFunction o).1))
  newMethod : ∀ {h} {o : MethodObject}, inv h → (∀ b ∈ o.refs, holds h b) →
    inv (h.newMethod o).2 ∧ step h (h.newMethod o).2 ∧
      holds (h.newMethod o).2 (.value (.method (h.newMethod o).1))
  newClass : ∀ {h} {o : ClassObject}, inv h → (∀ b ∈ o.refs, holds h b) →
    inv (h.newClass o).2 ∧ step h (h.newClass o).2 ∧
      holds (h.newClass o).2 (.value (.type (h.newClass o).1))
  newInstance : ∀ {h c}, inv h → holds h (.value (.type c)) →
    inv (h.newInstance c).2 ∧ step h (h.newInstance c).2 ∧
      holds (h.newInstance c).2 (.value (.object (h.newInstance c).1))
  bindName : ∀ {h s v} (x : Name), inv h → binds s → holds h (.value v) →
    inv (h.modifyScope s (·.insert x v)) ∧ step h (h.modifyScope s (·.insert x v))
  setAttr : ∀ {h k target v} (x : Name), inv h → holds h (.value target) → holds h (.value v) →
    h.setAttr? target x v = some k → inv k ∧ step h k

namespace Law

variable (L : Law)

/-- The heap is still one of the law, and has changed as the law says. -/
def Stays (h k : Heap) : Prop := L.inv k ∧ L.step h k

def val (h : Heap) (v : Value) : Prop := L.holds h (.value v)

variable {L}

theorem Stays.refl {h : Heap} (hi : L.inv h) : L.Stays h h := ⟨hi, L.refl h⟩

theorem Stays.trans {h k l : Heap} (a : L.Stays h k) (b : L.Stays k l) : L.Stays h l :=
  ⟨b.1, L.trans a.2 b.2⟩

theorem val_later {h k : Heap} {v : Value} (hs : L.Stays h k) (hv : L.val h v) : L.val k v :=
  L.later hs.2 hv

theorem vals_later {h k : Heap} {vs : List Value} (hs : L.Stays h k) (hv : ∀ v ∈ vs, L.val h v) :
    ∀ v ∈ vs, L.val k v := fun v hm => val_later hs (hv v hm)

end Law

/-! ## Runs that keep a law -/

namespace Run

variable {L : Law} {α β : Type} {m : Machine}

/-- The state that a run leaves, however it ends. -/
def final {ε σ α : Type} : EStateM.Result ε σ α → σ
  | .ok _ s | .error _ s => s

/-- The value that a run ends with, if it has one. -/
def value? {ε σ α : Type} : EStateM.Result ε σ α → Option α
  | .ok a _ => some a
  | .error _ _ => none

theorem eq_ok_final {ε σ α : Type} {r : EStateM.Result ε σ α} {a : α} (h : value? r = some a) :
    r = .ok a (final r) := by
  cases r with
  | ok b s => cases h; rfl
  | error e s => cases h

/-- However the run ends, the law is kept; if it ends with a value, the property holds. -/
def Keeps (L : Law) (m : Machine) (x : Run α) (Q : α → Heap → Prop) : Prop :=
  match x m with
  | .ok a m' => L.Stays m.heap m'.heap ∧ Q a m'.heap
  | .error _ m' => L.Stays m.heap m'.heap

theorem Keeps.final {x : Run α} {Q : α → Heap → Prop} (h : Keeps L m x Q) :
    L.Stays m.heap (Run.final (x m)).heap := by
  unfold Keeps at h
  cases hr : x m with
  | ok a m' => rw [hr] at h; exact h.1
  | error e m' => rw [hr] at h; exact h

theorem keeps_pure {Q : α → Heap → Prop} (hi : L.inv m.heap) {a : α} (ha : Q a m.heap) :
    Keeps L m (pure a) Q := ⟨.refl hi, ha⟩

theorem keeps_throw {Q : α → Heap → Prop} (hi : L.inv m.heap) (e : Halt RunError) :
    Keeps L m (throw e) Q := Law.Stays.refl hi

theorem keeps_fail {Q : α → Heap → Prop} (hi : L.inv m.heap) (e : RunError) :
    Keeps L m (fail e) Q := keeps_throw hi _

theorem keeps_bind {x : Run α} {f : α → Run β} {Q : α → Heap → Prop} {R : β → Heap → Prop}
    (hx : Keeps L m x Q)
    (hf : ∀ a m', L.Stays m.heap m'.heap → Q a m'.heap → Keeps L m' (f a) R) :
    Keeps L m (x >>= f) R := by
  unfold Keeps at hx ⊢
  show match EStateM.bind x f m with
    | .ok a m' => _
    | .error _ m' => _
  unfold EStateM.bind
  cases hr : x m with
  | error e m' => rw [hr] at hx; exact hx
  | ok a m' =>
    rw [hr] at hx
    have h := hf a m' hx.1 hx.2
    unfold Keeps at h
    show match f a m' with
      | .ok b m'' => L.Stays m.heap m''.heap ∧ R b m''.heap
      | .error _ m'' => L.Stays m.heap m''.heap
    cases hr' : f a m' with
    | error e m'' => rw [hr'] at h; exact hx.1.trans h
    | ok b m'' => rw [hr'] at h; exact ⟨hx.1.trans h.1, h.2⟩

theorem keeps_read_bind {g : Heap → α} {f : α → Run β} {R : β → Heap → Prop}
    (h : Keeps L m (f (g m.heap)) R) : Keeps L m (read g >>= f) R := h

theorem keeps_make {g : Heap → α × Heap} {Q : α → Heap → Prop} (hs : L.Stays m.heap (g m.heap).2)
    (hq : Q (g m.heap).1 (g m.heap).2) : Keeps L m (make g) Q := ⟨hs, hq⟩

theorem keeps_deeper {x : Run α} {Q : α → Heap → Prop}
    (h : Keeps L { m with depth := m.depth + 1 } x Q) : Keeps L m (deeper x) Q := by
  unfold Keeps deeper at *
  cases hr : x { m with depth := m.depth + 1 } with
  | error e m' => rw [hr] at h; exact h
  | ok a m' => rw [hr] at h; exact h

end Run

/-! ## Reading -/

namespace Law

variable {L : Law} {h : Heap}

theorem bound_holds {b : Bindings Value} (hb : ∀ w ∈ b.values, L.val h w) {x : Name} {v : Value}
    (hx : b.get? x = some v) : L.val h v := hb _ (Bindings.mem_values_of_get? hx)

theorem attrs_holds (hi : L.inv h) {c : ClassRef} (hc : L.val h (.type c)) {x : Name} {v : Value}
    (hx : (h.type c).attrs.get? x = some v) : L.val h v :=
  bound_holds (fun _ hw => L.refs hi hc _ (List.mem_append_right _ (List.mem_map_of_mem hw))) hx

theorem bases_holds (hi : L.inv h) {c : ClassRef} (hc : L.val h (.type c)) :
    ∀ b ∈ (h.type c).bases, L.val h (.type b) :=
  fun _ hb => L.refs hi hc _ (List.mem_append_left _ (List.mem_map_of_mem hb))

theorem lookupWithin_holds (hi : L.inv h) {x : Name} {v : Value} :
    ∀ (n : Nat) (c : ClassRef), L.val h (.type c) → h.lookupWithin x n c = some v → L.val h v
  | 0, _, _, hx => by cases hx
  | n + 1, c, hc, hx => by
    unfold Heap.lookupWithin at hx
    split at hx
    · rename_i w hw
      cases hx
      exact attrs_holds hi hc hw
    · obtain ⟨b, hb, hx⟩ := List.exists_of_findSome?_eq_some hx
      exact lookupWithin_holds hi n b (bases_holds hi hc b hb) hx

theorem lookup_holds (hi : L.inv h) {c : ClassRef} (hc : L.val h (.type c)) {x : Name} {v : Value}
    (hx : h.lookup c x = some v) : L.val h v := lookupWithin_holds hi _ c hc hx

theorem functionAttr_holds (hi : L.inv h) {f : FunctionRef} (hf : L.val h (.function f)) {x : Name}
    {v : Value} (hx : h.functionAttr? f x = some v) : L.val h v := by
  unfold Heap.functionAttr? at hx
  simp only at hx
  split at hx
  · cases hx; exact L.scalar h trivial
  · split at hx
    · cases hx; exact L.scalar h trivial
    · split at hx
      · cases hx
        cases (h.function f).state.doc <;> exact L.scalar h trivial
      · exact bound_holds (fun _ hw => L.refs hi hf _
          (List.mem_cons_of_mem _ (List.mem_map_of_mem (List.mem_append_right _ hw)))) hx

/-- What was found as an attribute is made of values of the law. -/
def found (L : Law) (h : Heap) : Attribute → Prop
  | .value v => L.val h v
  | .bound r f => L.val h r ∧ L.val h (.function f)

theorem attr_found (hi : L.inv h) {v : Value} (hv : L.val h v) {x : Name} {a : Attribute}
    (hx : h.attr? v x = some a) : L.found h a := by
  unfold Heap.attr? at hx
  cases v with
  | object o =>
    simp only at hx
    split at hx
    · rename_i w hw
      cases hx
      exact bound_holds (fun _ hu => L.refs hi hv _
        (List.mem_cons_of_mem _ (List.mem_map_of_mem hu))) hw
    · have hc : L.val h (.type (h.object o).type) := L.refs hi hv _ (List.mem_cons_self ..)
      obtain ⟨w, hw, rfl⟩ := Option.map_eq_some_iff.1 hx
      have hw := lookup_holds hi hc hw
      cases w with
      | function f => exact ⟨hv, hw⟩
      | _ => exact hw
  | type c =>
    simp only at hx
    split at hx
    · cases hx; exact L.scalar h trivial
    · obtain ⟨w, hw, rfl⟩ := Option.map_eq_some_iff.1 hx
      exact lookup_holds hi hv hw
  | function f =>
    obtain ⟨w, hw, rfl⟩ := Option.map_eq_some_iff.1 hx
    exact functionAttr_holds hi hv hw
  | method m =>
    have hf : L.val h (.function (h.method m).function) :=
      L.refs hi hv _ (List.mem_cons_of_mem _ (List.mem_cons_self ..))
    simp only at hx
    split at hx
    · cases hx; exact hf
    · split at hx
      · cases hx; exact L.refs hi hv _ (List.mem_cons_self ..)
      · obtain ⟨w, hw, rfl⟩ := Option.map_eq_some_iff.1 hx
        exact functionAttr_holds hi hf hw
  | _ => cases hx

theorem obtain_stays (hi : L.inv h) {a : Attribute} (ha : L.found h a) :
    L.Stays h (h.obtain a).2 ∧ L.val (h.obtain a).2 (h.obtain a).1 := by
  cases a with
  | value v => exact ⟨.refl hi, ha⟩
  | bound r f =>
    have ho : ∀ b ∈ (⟨r, f⟩ : MethodObject).refs, L.holds h b := by
      intro b hb
      rcases List.mem_cons.1 hb with rfl | hb
      · exact ha.1
      · rw [List.mem_singleton.1 hb]; exact ha.2
    obtain ⟨h₁, h₂, h₃⟩ := L.newMethod hi ho
    exact ⟨⟨h₁, h₂⟩, h₃⟩

end Law

end LivePatch
