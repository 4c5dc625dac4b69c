/-
The graph of objects: what each object refers to, and what can be reached from it. A region is a part
of the graph: the objects made since some moment, together with some namespaces. A closed region refers
to nothing outside, so that nothing outside can be reached from within; making and changing objects
keeps it closed as long as they only get values of the region.
-/
import LivePatch.Proofs.Heap.Persist
import Mathlib.Logic.Relation

namespace LivePatch

/-! ## The graph -/

/-- A place in the graph of objects: a value, or a namespace. -/
inductive Node where
  | value (v : Value)
  | scope (s : ScopeRef)
  deriving DecidableEq, Repr

def FunctionState.values (s : FunctionState) : List Value := s.defaults ++ s.attrs.values

def FunctionObject.refs (o : FunctionObject) : List Node :=
  .scope o.globals :: o.state.values.map .value

def MethodObject.refs (o : MethodObject) : List Node :=
  [.value o.receiver, .value (.function o.function)]

def ClassObject.refs (o : ClassObject) : List Node :=
  o.bases.map (fun c => .value (.type c)) ++ o.attrs.values.map .value

def InstanceObject.refs (o : InstanceObject) : List Node :=
  .value (.type o.type) :: o.fields.values.map .value

namespace Heap

/-- What a place in the graph refers to. -/
def refs (h : Heap) : Node → List Node
  | .scope s => (h.scope s).values.map .value
  | .value (.function f) => (h.function f).refs
  | .value (.method m) => (h.method m).refs
  | .value (.type c) => (h.type c).refs
  | .value (.object o) => (h.object o).refs
  | .value .none | .value (.bool _) | .value (.int _) | .value (.str _) | .value (.builtin _) => []

/-- Whether one place in the graph can be reached from another. -/
def Reaches (h : Heap) : Node → Node → Prop := Relation.ReflTransGen fun a b => b ∈ h.refs a

end Heap

/-- Whether a value is a scalar or an object made between two moments. -/
def Value.MadeBetween (h k : Heap) : Value → Prop
  | function f => h.functions.size ≤ f.index ∧ f.index < k.functions.size
  | method m => h.methods.size ≤ m.index ∧ m.index < k.methods.size
  | type c => h.classes.size ≤ c.index ∧ c.index < k.classes.size
  | object o => h.instances.size ≤ o.index ∧ o.index < k.instances.size
  | none | bool _ | int _ | str _ | builtin _ => True

theorem Value.MadeBetween.later {h k l : Heap} {v : Value} (hv : v.MadeBetween h k)
    (hl : k.Persists l) : v.MadeBetween h l := by
  cases v with
  | function f => exact ⟨hv.1, Nat.lt_of_lt_of_le hv.2 hl.functions.size⟩
  | method m => exact ⟨hv.1, Nat.lt_of_lt_of_le hv.2 hl.methods.size⟩
  | type c => exact ⟨hv.1, Nat.lt_of_lt_of_le hv.2 hl.classes.size⟩
  | object o => exact ⟨hv.1, Nat.lt_of_lt_of_le hv.2 hl.instances.size⟩
  | _ => trivial

theorem Value.MadeBetween.earlier {h k l : Heap} {v : Value} (hv : v.MadeBetween k l)
    (hk : h.Persists k) : v.MadeBetween h l := by
  cases v with
  | function f => exact ⟨Nat.le_trans hk.functions.size hv.1, hv.2⟩
  | method m => exact ⟨Nat.le_trans hk.methods.size hv.1, hv.2⟩
  | type c => exact ⟨Nat.le_trans hk.classes.size hv.1, hv.2⟩
  | object o => exact ⟨Nat.le_trans hk.instances.size hv.1, hv.2⟩
  | _ => trivial

/-! ## Regions -/

namespace Arena

variable {κ : ObjectKind} {α : Type} [Inhabited α]

/-- Every object from number `n` on has the property. -/
def From (n : Nat) (P : α → Prop) (a : Arena κ α) : Prop :=
  ∀ r : Ref κ, n ≤ r.index → r.index < a.size → P (a.get r)

namespace From

variable {n : Nat} {P Q : α → Prop} {a : Arena κ α}

theorem imp (h : From n P a) (hPQ : ∀ x, P x → Q x) : From n Q a := fun r h₁ h₂ => hPQ _ (h r h₁ h₂)

theorem push (h : From n P a) {x : α} (hx : P x) : From n P (a.push x) := by
  intro r h₁ h₂
  rw [size_push] at h₂
  by_cases hr : r.index < a.size
  · rw [get_push_of_lt a x hr]
    exact h r h₁ hr
  · have hr : r = a.next := by
      have hi : r.index = a.size := by omega
      cases r; cases hi; rfl
    rw [hr, get_push_next]
    exact hx

theorem modify (h : From n P a) (r : Ref κ) {f : α → α} (hf : ∀ x, P x → P (f x)) :
    From n P (a.modify r f) := by
  intro s h₁ h₂
  rw [size_modify] at h₂
  rcases get_modify_or a r s f with e | ⟨-, e⟩
  · rw [e]; exact h s h₁ h₂
  · rw [e]; exact hf _ (h s h₁ h₂)

theorem grow {b : Arena κ α} {S : α → Prop} (ha : From n P a) (hk : a.Keeps id b) (hb : From a.size Q b)
    (hP : ∀ x, P x → S x) (hQ : ∀ x, Q x → S x) : From n S b := by
  intro r h₁ h₂
  by_cases hr : r.index < a.size
  · rw [show b.get r = a.get r from hk.get r hr]
    exact hP _ (ha r h₁ hr)
  · exact hQ _ (hb r (Nat.not_lt.1 hr) h₂)

end From

end Arena

/-- A part of the graph: the objects made since some moment, and some namespaces. -/
structure Region where
  since : Heap
  scopes : ScopeRef → Prop

namespace Region

/-- Whether a place of the graph lies in the region. -/
def Has (R : Region) (h : Heap) : Node → Prop
  | .scope s => R.scopes s
  | .value v => v.MadeBetween R.since h

/-- Everything in the region refers only to places with the property. -/
structure RefersOnly (R : Region) (P : Node → Prop) (h : Heap) : Prop where
  scopes : ∀ s, R.scopes s → ∀ b ∈ (h.scope s).values.map .value, P b
  functions : h.functions.From R.since.functions.size fun o => ∀ b ∈ o.refs, P b
  methods : h.methods.From R.since.methods.size fun o => ∀ b ∈ o.refs, P b
  classes : h.classes.From R.since.classes.size fun o => ∀ b ∈ o.refs, P b
  instances : h.instances.From R.since.instances.size fun o => ∀ b ∈ o.refs, P b

/-- Nothing in the region refers to anything outside. -/
def Closed (R : Region) (h : Heap) : Prop := R.RefersOnly (R.Has h) h

variable {R : Region} {P Q : Node → Prop} {h k : Heap}

theorem Has.later {a : Node} (ha : R.Has h a) (hk : h.Persists k) : R.Has k a := by
  cases a with
  | value v => exact Value.MadeBetween.later ha hk
  | scope s => exact ha

theorem RefersOnly.imp (hr : R.RefersOnly P h) (hPQ : ∀ a, P a → Q a) : R.RefersOnly Q h where
  scopes s hs b hb := hPQ b (hr.scopes s hs b hb)
  functions := hr.functions.imp fun _ ho b hb => hPQ b (ho b hb)
  methods := hr.methods.imp fun _ ho b hb => hPQ b (ho b hb)
  classes := hr.classes.imp fun _ ho b hb => hPQ b (ho b hb)
  instances := hr.instances.imp fun _ ho b hb => hPQ b (ho b hb)

theorem RefersOnly.refs (hr : R.RefersOnly P h) {a : Node} (ha : R.Has h a) : ∀ b ∈ h.refs a, P b := by
  cases a with
  | scope s => exact hr.scopes s ha
  | value v =>
    cases v with
    | function f => exact hr.functions f ha.1 ha.2
    | method m => exact hr.methods m ha.1 ha.2
    | type c => exact hr.classes c ha.1 ha.2
    | object o => exact hr.instances o ha.1 ha.2
    | _ => intro b hb; cases hb

/-- Whatever can be reached from within a closed region lies within. -/
theorem Closed.reaches (hc : R.Closed h) {a b : Node} (ha : R.Has h a) (hr : h.Reaches a b) :
    R.Has h b := by
  induction hr with
  | refl => exact ha
  | tail _ hb ih => exact hc.refs ih _ hb

/-- A region whose objects refer only to what lay in it at an earlier moment is closed. -/
theorem RefersOnly.closed (hr : R.RefersOnly (R.Has h) k) (hk : h.Persists k) : R.Closed k :=
  hr.imp fun _ ha => ha.later hk

/-- A region on a heap that has grown by another region. -/
theorem RefersOnly.grow {S : Node → Prop} {R' : Region} (hr : R.RefersOnly P h) (hk : h.Extends k)
    (hr' : R'.RefersOnly Q k) (hsince : R'.since = h) (hs : ∀ s, R.scopes s → s.index < h.scopes.size)
    (hP : ∀ a, P a → S a) (hQ : ∀ a, Q a → S a) : R.RefersOnly S k := by
  subst hsince
  have hP' : ∀ l : List Node, (∀ b ∈ l, P b) → ∀ b ∈ l, S b := fun l hl b hb => hP b (hl b hb)
  have hQ' : ∀ l : List Node, (∀ b ∈ l, Q b) → ∀ b ∈ l, S b := fun l hl b hb => hQ b (hl b hb)
  refine ⟨fun s hsc => ?_, hr.functions.grow hk.functions hr'.functions (fun _ => hP' _) (fun _ => hQ' _),
    hr.methods.grow hk.methods hr'.methods (fun _ => hP' _) (fun _ => hQ' _),
    hr.classes.grow hk.classes hr'.classes (fun _ => hP' _) (fun _ => hQ' _),
    hr.instances.grow hk.instances hr'.instances (fun _ => hP' _) (fun _ => hQ' _)⟩
  rw [show k.scope s = R'.since.scope s from hk.scopes.get s (hs s hsc)]
  exact hP' _ (hr.scopes s hsc)

/-! ## Making and changing objects -/

theorem RefersOnly.newFunction (hr : R.RefersOnly P h) {o : FunctionObject} (ho : ∀ b ∈ o.refs, P b) :
    R.RefersOnly P (h.newFunction o).2 :=
  { hr with functions := hr.functions.push ho }

theorem RefersOnly.newMethod (hr : R.RefersOnly P h) {o : MethodObject} (ho : ∀ b ∈ o.refs, P b) :
    R.RefersOnly P (h.newMethod o).2 :=
  { hr with methods := hr.methods.push ho }

theorem RefersOnly.newClass (hr : R.RefersOnly P h) {o : ClassObject} (ho : ∀ b ∈ o.refs, P b) :
    R.RefersOnly P (h.newClass o).2 :=
  { hr with classes := hr.classes.push ho }

theorem RefersOnly.newInstance (hr : R.RefersOnly P h) {c : ClassRef} (hc : P (.value (.type c))) :
    R.RefersOnly P (h.newInstance c).2 :=
  { hr with
    instances := hr.instances.push fun b hb => by
      rcases List.mem_cons.1 hb with rfl | hb
      · exact hc
      · cases hb }

theorem RefersOnly.modifyFunction (hr : R.RefersOnly P h) (r : FunctionRef)
    {f : FunctionState → FunctionState}
    (hf : ∀ s : FunctionState, ∀ w ∈ (f s).values, w ∈ s.values ∨ P (.value w)) :
    R.RefersOnly P (h.modifyFunction r f) :=
  { hr with
    functions := hr.functions.modify r fun o ho b hb => by
      rcases List.mem_cons.1 hb with rfl | hb
      · exact ho _ (List.mem_cons_self ..)
      · obtain ⟨w, hw, rfl⟩ := List.mem_map.1 hb
        rcases hf _ w hw with hw | hw
        · exact ho _ (List.mem_cons_of_mem _ (List.mem_map_of_mem hw))
        · exact hw }

theorem RefersOnly.modifyAttrs (hr : R.RefersOnly P h) (r : ClassRef)
    {f : Bindings Value → Bindings Value}
    (hf : ∀ b : Bindings Value, ∀ w ∈ (f b).values, w ∈ b.values ∨ P (.value w)) :
    R.RefersOnly P (h.modifyAttrs r f) :=
  { hr with
    classes := hr.classes.modify r fun o ho b hb => by
      rcases List.mem_append.1 hb with hb | hb
      · exact ho b (List.mem_append_left _ hb)
      · obtain ⟨w, hw, rfl⟩ := List.mem_map.1 hb
        rcases hf _ w hw with hw | hw
        · exact ho _ (List.mem_append_right _ (List.mem_map_of_mem hw))
        · exact hw }

theorem RefersOnly.modifyFields (hr : R.RefersOnly P h) (r : InstanceRef)
    {f : Bindings Value → Bindings Value}
    (hf : ∀ b : Bindings Value, ∀ w ∈ (f b).values, w ∈ b.values ∨ P (.value w)) :
    R.RefersOnly P (h.modifyFields r f) :=
  { hr with
    instances := hr.instances.modify r fun o ho b hb => by
      rcases List.mem_cons.1 hb with rfl | hb
      · exact ho _ (List.mem_cons_self ..)
      · obtain ⟨w, hw, rfl⟩ := List.mem_map.1 hb
        rcases hf _ w hw with hw | hw
        · exact ho _ (List.mem_cons_of_mem _ (List.mem_map_of_mem hw))
        · exact hw }

theorem RefersOnly.modifyScope (hr : R.RefersOnly P h) (r : ScopeRef)
    {f : Bindings Value → Bindings Value}
    (hf : ∀ b : Bindings Value, ∀ w ∈ (f b).values, w ∈ b.values ∨ P (.value w)) :
    R.RefersOnly P (h.modifyScope r f) :=
  { hr with
    scopes := fun s hs b hb => by
      rcases h.scope_modifyScope_or r s f with e | ⟨-, e⟩
      · rw [e] at hb
        exact hr.scopes s hs b hb
      · rw [e] at hb
        obtain ⟨w, hw, rfl⟩ := List.mem_map.1 hb
        rcases hf _ w hw with hw | hw
        · exact hr.scopes s hs _ (List.mem_map_of_mem hw)
        · exact hw }

end Region

/-- The whole of a heap as a region. -/
def Region.whole : Region := ⟨.empty, fun _ => True⟩

/-- No object and no namespace holds an object that is not there. -/
def Heap.Closed (h : Heap) : Prop := Region.whole.Closed h

end LivePatch
