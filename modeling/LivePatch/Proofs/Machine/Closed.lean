/-
Closed heaps. Code can only get hold of objects that are there, so whatever it makes, binds and sets
refers to objects that are there: on a closed heap every run leaves a closed heap, however it ends.
-/
import LivePatch.Proofs.Machine.Footprint

namespace LivePatch

namespace Heap

variable {h k : Heap}

/-- A value whose object is there. -/
abbrev There (h : Heap) (v : Value) : Prop := v.MadeBetween .empty h

/-- Whatever the attributes of a class hold has the property, also where there is no class. -/
theorem attr_of_refersOnly {P : Node → Prop} (hr : Region.whole.RefersOnly P h) {c : ClassRef} {v : Value}
    (hv : v ∈ (h.type c).attrs.values) : P (.value v) := by
  by_cases hc : c.index < h.classes.size
  · exact hr.classes c (Nat.zero_le _) hc (.value v) (List.mem_append_right _ (List.mem_map_of_mem hv))
  · rw [show h.type c = default from h.classes.get_of_size_le (Nat.not_lt.1 hc)] at hv
    cases hv

theorem state_of_refersOnly {P : Node → Prop} (hr : Region.whole.RefersOnly P h) {f : FunctionRef}
    {v : Value} (hv : v ∈ (h.function f).state.values) : P (.value v) := by
  by_cases hf : f.index < h.functions.size
  · exact hr.functions f (Nat.zero_le _) hf (.value v) (List.mem_cons_of_mem _ (List.mem_map_of_mem hv))
  · rw [show h.function f = default from h.functions.get_of_size_le (Nat.not_lt.1 hf)] at hv
    cases hv

theorem Closed.bound (hc : h.Closed) {r : ScopeRef} {x : Name} {v : Value}
    (hx : (h.scope r).get? x = some v) : h.There v :=
  hc.scopes r trivial (.value v) (List.mem_map_of_mem (Bindings.mem_values_of_get? hx))

/-! ## Making and changing objects -/

theorem closed_empty : Heap.empty.Closed := by
  refine ⟨fun s _ b hb => ?_, ?_, ?_, ?_, ?_⟩
  · have he : Heap.empty.scope s = .empty := rfl
    rw [he] at hb
    cases hb
  all_goals exact fun r _ hr => absurd hr (Nat.not_lt_zero _)

/-- A new namespace may hold what is there. -/
theorem Closed.pushScope (hc : h.Closed) {b : Bindings Value} (hb : ∀ w ∈ b.values, h.There w)
    (hk : h.Persists k) (hscopes : k.scopes = h.scopes.push b) (hfunctions : k.functions = h.functions)
    (hmethods : k.methods = h.methods) (hclasses : k.classes = h.classes)
    (hinstances : k.instances = h.instances) : k.Closed := by
  refine Region.RefersOnly.closed ⟨fun s _ a ha => ?_, hfunctions ▸ hc.functions, hmethods ▸ hc.methods,
    hclasses ▸ hc.classes, hinstances ▸ hc.instances⟩ hk
  unfold Heap.scope at ha
  rw [hscopes] at ha
  rcases h.scopes.get_push_or b s with e | e
  · rw [e] at ha
    exact hc.scopes s trivial a ha
  · rw [e] at ha
    obtain ⟨w, hw, rfl⟩ := List.mem_map.1 ha
    exact hb w hw

theorem Closed.newScope (hc : h.Closed) : h.newScope.2.Closed :=
  hc.pushScope (b := .empty) nofun h.extends_newScope.footprint.persists rfl rfl rfl rfl rfl

theorem Closed.newModule (hc : h.Closed) (x : Name) (places : Option (List Path)) :
    (h.newModule x places).2.Closed := by
  refine hc.pushScope (b := Bindings.empty.insert selfName (.str x)) (fun w hw => ?_)
    (h.extends_newModule x places).footprint.persists rfl rfl rfl rfl rfl
  rcases Bindings.mem_values_insert hw with rfl | hw
  · trivial
  · cases hw

theorem Closed.modifyScope (hc : h.Closed) (r : ScopeRef) {f : Bindings Value → Bindings Value}
    (hf : ∀ b : Bindings Value, ∀ w ∈ (f b).values, w ∈ b.values ∨ h.There w) :
    (h.modifyScope r f).Closed :=
  (Region.RefersOnly.modifyScope hc r hf).closed (h.persists_modifyScope r f)

theorem Closed.modifyAttrs (hc : h.Closed) (r : ClassRef) {f : Bindings Value → Bindings Value}
    (hf : ∀ b : Bindings Value, ∀ w ∈ (f b).values, w ∈ b.values ∨ h.There w) :
    (h.modifyAttrs r f).Closed :=
  (Region.RefersOnly.modifyAttrs hc r hf).closed (h.footprint_modifyAttrs r f).persists

theorem Closed.modifyFunction (hc : h.Closed) (r : FunctionRef) {f : FunctionState → FunctionState}
    (hf : ∀ s : FunctionState, ∀ w ∈ (f s).values, w ∈ s.values ∨ h.There w) :
    (h.modifyFunction r f).Closed :=
  (Region.RefersOnly.modifyFunction hc r hf).closed (h.persists_modifyFunction r f)

theorem Closed.setOrigin (hc : h.Closed) (r : ModuleRef) (origin : Path) : (h.setOrigin r origin).Closed :=
  Region.RefersOnly.closed (h := h) ⟨hc.scopes, hc.functions, hc.methods, hc.classes, hc.instances⟩
    (h.persists_setOrigin r origin)

theorem Closed.setAttr (hc : h.Closed) {target v : Value} (hv : h.There v) {x : Name}
    (hk : h.setAttr? target x v = some k) : k.Closed := by
  have hinsert : ∀ b : Bindings Value, ∀ w ∈ (b.insert x v).values, w ∈ b.values ∨ h.There w := by
    intro b w hw
    rcases Bindings.mem_values_insert hw with rfl | hw
    · exact .inr hv
    · exact .inl hw
  cases target with
  | object o =>
    cases hk
    exact (Region.RefersOnly.modifyFields hc o hinsert).closed (h.footprint_modifyFields o _).persists
  | type c =>
    cases hk
    exact hc.modifyAttrs c hinsert
  | function f =>
    unfold Heap.setAttr? at hk
    simp only at hk
    split at hk
    · cases hk
      exact hc.modifyFunction f fun s w hw => .inl hw
    · cases hk
      refine hc.modifyFunction f fun s w hw => ?_
      rcases List.mem_append.1 hw with hw | hw
      · exact .inl (List.mem_append_left _ hw)
      · exact (hinsert _ w hw).imp (List.mem_append_right _) id
  | _ => cases hk

end Heap

/-! ## Running code -/

/-- The law of code on a closed heap. -/
def Law.closed : Law where
  inv := Heap.Closed
  step h k := h.Persists k
  holds h a := Region.whole.Has h a
  binds _ := True
  refl := .refl
  trans a b := a.trans b
  later hp ha := ha.later hp
  scalar h v hv := by cases v <;> trivial
  refs hc ha := hc.refs ha
  newFunction {h o} hc ho :=
    have hp := (h.extends_newFunction o).footprint.persists
    ⟨(Region.RefersOnly.newFunction hc ho).closed hp, hp, Nat.zero_le _,
      by simp [Heap.newFunction, Arena.next, Arena.size, Arena.push]⟩
  newMethod {h o} hc ho :=
    have hp := (h.extends_newMethod o).footprint.persists
    ⟨(Region.RefersOnly.newMethod hc ho).closed hp, hp, Nat.zero_le _,
      by simp [Heap.newMethod, Arena.next, Arena.size, Arena.push]⟩
  newClass {h o} hc ho :=
    have hp := (h.extends_newClass o).footprint.persists
    ⟨(Region.RefersOnly.newClass hc ho).closed hp, hp, Nat.zero_le _,
      by simp [Heap.newClass, Arena.next, Arena.size, Arena.push]⟩
  newInstance {h c} hc ho :=
    have hp := (h.extends_newInstance c).footprint.persists
    ⟨(Region.RefersOnly.newInstance hc ho).closed hp, hp, Nat.zero_le _,
      by simp [Heap.newInstance, Arena.next, Arena.size, Arena.push]⟩
  bindName {h s v} x hc _ hv := by
    refine ⟨hc.modifyScope s fun b w hw => ?_, h.persists_modifyScope s _⟩
    rcases Bindings.mem_values_insert hw with rfl | hw
    · exact .inr hv
    · exact .inl hw
  setAttr x hc _ hv hk := ⟨hc.setAttr hv hk, (Heap.footprint_setAttr hk).persists⟩

theorem CodeUnit.run_closed {m : Machine} (hc : m.heap.Closed) (limit : Nat) (u : CodeUnit)
    (globals : ScopeRef) (module : Name) : (Run.final (u.run limit globals module m)).heap.Closed :=
  (CodeUnit.run_keeps (L := .closed) hc limit u trivial trivial module).final.1

end LivePatch
