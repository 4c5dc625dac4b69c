/-
Isolation. Code that starts in a new namespace holds nothing that was there before: whatever it
reads, makes and binds was made by the run itself. So a run leaves every earlier object as it was,
however it ends, and nothing earlier can be reached from its namespace afterwards.
-/
import LivePatch.Proofs.Machine.Keep

namespace LivePatch

/-- What is made since a moment, with one namespace. -/
def Region.fresh (pre : Heap) (scope : ScopeRef) : Region := ⟨pre, fun s => s = scope⟩

variable {pre : Heap} {scope : ScopeRef}

/-- The heap of isolated code: everything earlier is as it was, and what the code has made, with its
namespace, refers to nothing earlier. -/
structure Isolated (pre : Heap) (scope : ScopeRef) (h : Heap) : Prop where
  kept : pre.Extends h
  closed : (Region.fresh pre scope).Closed h

namespace Isolated

variable {h : Heap}

theorem newFunction (hi : Isolated pre scope h) {o : FunctionObject}
    (ho : ∀ b ∈ o.refs, (Region.fresh pre scope).Has h b) : Isolated pre scope (h.newFunction o).2 :=
  ⟨hi.kept.trans (h.extends_newFunction o),
    (hi.closed.newFunction ho).closed (h.extends_newFunction o).footprint.persists⟩

theorem newMethod (hi : Isolated pre scope h) {o : MethodObject}
    (ho : ∀ b ∈ o.refs, (Region.fresh pre scope).Has h b) : Isolated pre scope (h.newMethod o).2 :=
  ⟨hi.kept.trans (h.extends_newMethod o),
    (hi.closed.newMethod ho).closed (h.extends_newMethod o).footprint.persists⟩

theorem newClass (hi : Isolated pre scope h) {o : ClassObject}
    (ho : ∀ b ∈ o.refs, (Region.fresh pre scope).Has h b) : Isolated pre scope (h.newClass o).2 :=
  ⟨hi.kept.trans (h.extends_newClass o),
    (hi.closed.newClass ho).closed (h.extends_newClass o).footprint.persists⟩

theorem newInstance (hi : Isolated pre scope h) {c : ClassRef}
    (hc : (Region.fresh pre scope).Has h (.value (.type c))) : Isolated pre scope (h.newInstance c).2 :=
  ⟨hi.kept.trans (h.extends_newInstance c),
    (hi.closed.newInstance hc).closed (h.extends_newInstance c).footprint.persists⟩

theorem values_insert {v : Value} (hv : (Region.fresh pre scope).Has h (.value v)) (x : Name)
    (b : Bindings Value) : ∀ w ∈ (b.insert x v).values,
      w ∈ b.values ∨ (Region.fresh pre scope).Has h (.value w) := by
  intro w hw
  rcases Bindings.mem_values_insert hw with rfl | hw
  · exact .inr hv
  · exact .inl hw

theorem bindName (hs : pre.scopes.size ≤ scope.index) (hi : Isolated pre scope h) {v : Value}
    (hv : (Region.fresh pre scope).Has h (.value v)) (x : Name) :
    Isolated pre scope (h.modifyScope scope (·.insert x v)) :=
  ⟨{ hi.kept with scopes := hi.kept.scopes.modify_new hs _ },
    (hi.closed.modifyScope scope (values_insert hv x)).closed (h.persists_modifyScope _ _)⟩

theorem setAttr (hi : Isolated pre scope h) {target v : Value}
    (ht : (Region.fresh pre scope).Has h (.value target))
    (hv : (Region.fresh pre scope).Has h (.value v)) {x : Name} {k : Heap}
    (hk : h.setAttr? target x v = some k) : Isolated pre scope k ∧ h.Persists k := by
  cases target with
  | object o =>
    cases hk
    have hp := (h.footprint_modifyFields o (·.insert x v)).persists
    exact ⟨⟨{ hi.kept with instances := hi.kept.instances.modify_new ht.1 _ },
      (hi.closed.modifyFields o (values_insert hv x)).closed hp⟩, hp⟩
  | type c =>
    cases hk
    have hp := (h.footprint_modifyAttrs c (·.insert x v)).persists
    exact ⟨⟨{ hi.kept with classes := hi.kept.classes.modify_new ht.1 _ },
      (hi.closed.modifyAttrs c (values_insert hv x)).closed hp⟩, hp⟩
  | function f =>
    unfold Heap.setAttr? at hk
    simp only at hk
    split at hk
    · cases hk
      have hp := (h.footprint_setDoc f (Heap.docOf v)).persists
      refine ⟨⟨{ hi.kept with functions := hi.kept.functions.modify_new ht.1 _ }, ?_⟩, hp⟩
      exact Region.RefersOnly.closed (hi.closed.modifyFunction f fun s w hw => .inl hw) hp
    · cases hk
      have hp := (h.footprint_setFunctionAttrs f fun s => s.attrs.insert x v).persists
      refine ⟨⟨{ hi.kept with functions := hi.kept.functions.modify_new ht.1 _ },
        (hi.closed.modifyFunction f fun s w hw => ?_).closed hp⟩, hp⟩
      rcases List.mem_append.1 hw with hw | hw
      · exact .inl (List.mem_append_left _ hw)
      · exact (values_insert hv x _ w hw).imp (List.mem_append_right _) id
  | _ => cases hk

end Isolated

/-- The law of isolated code. -/
def Law.isolated (pre : Heap) (scope : ScopeRef) (hs : pre.scopes.size ≤ scope.index) : Law where
  inv := Isolated pre scope
  step h k := h.Persists k
  holds := (Region.fresh pre scope).Has
  binds s := s = scope
  refl := .refl
  trans a b := a.trans b
  later hp ha := ha.later hp
  scalar h v hv := by cases v <;> trivial
  refs hi ha := hi.closed.refs ha
  newFunction {h o} hi ho :=
    ⟨hi.newFunction ho, (h.extends_newFunction o).footprint.persists, hi.kept.functions.size,
      by simp [Heap.newFunction, Arena.next, Arena.size, Arena.push]⟩
  newMethod {h o} hi ho :=
    ⟨hi.newMethod ho, (h.extends_newMethod o).footprint.persists, hi.kept.methods.size,
      by simp [Heap.newMethod, Arena.next, Arena.size, Arena.push]⟩
  newClass {h o} hi ho :=
    ⟨hi.newClass ho, (h.extends_newClass o).footprint.persists, hi.kept.classes.size,
      by simp [Heap.newClass, Arena.next, Arena.size, Arena.push]⟩
  newInstance {h c} hi hc :=
    ⟨hi.newInstance hc, (h.extends_newInstance c).footprint.persists, hi.kept.instances.size,
      by simp [Heap.newInstance, Arena.next, Arena.size, Arena.push]⟩
  bindName {h s v} x hi hb hv := by
    subst hb
    exact ⟨hi.bindName hs hv x, h.persists_modifyScope _ _⟩
  setAttr x hi ht hv hk := hi.setAttr ht hv hk

/-! ## Units -/

/-- A heap on which nothing was made since but a namespace that holds scalars only. -/
theorem Isolated.start {h : Heap} (hk : pre.Extends h) (hf : h.functions.size = pre.functions.size)
    (hm : h.methods.size = pre.methods.size) (hc : h.classes.size = pre.classes.size)
    (ho : h.instances.size = pre.instances.size) (hv : ∀ v ∈ (h.scope scope).values, v.IsScalar) :
    Isolated pre scope h := by
  refine ⟨hk, fun s hs b hb => ?_, fun r h₁ h₂ => ?_, fun r h₁ h₂ => ?_, fun r h₁ h₂ => ?_,
    fun r h₁ h₂ => ?_⟩
  · cases hs
    obtain ⟨v, hm, rfl⟩ := List.mem_map.1 hb
    have hv := hv v hm
    cases v <;> trivial
  · exact absurd h₂ (by rw [hf]; exact Nat.not_lt.2 h₁)
  · exact absurd h₂ (by rw [hm]; exact Nat.not_lt.2 h₁)
  · exact absurd h₂ (by rw [hc]; exact Nat.not_lt.2 h₁)
  · exact absurd h₂ (by rw [ho]; exact Nat.not_lt.2 h₁)

/-- A unit that starts isolated ends isolated, however it ends. -/
theorem CodeUnit.run_isolated (hs : pre.scopes.size ≤ scope.index) {m : Machine}
    (hi : Isolated pre scope m.heap) (limit : Nat) (u : CodeUnit) (module : Name) :
    Isolated pre scope (Run.final (u.run limit scope module m)).heap ∧
      m.heap.Persists (Run.final (u.run limit scope module m)).heap :=
  (CodeUnit.run_keeps (L := Law.isolated pre scope hs) hi limit u rfl rfl module).final

theorem Heap.newScope_isolated (h : Heap) : Isolated h h.newScope.1 h.newScope.2 := by
  refine .start h.extends_newScope rfl rfl rfl rfl fun v hv => ?_
  have he : h.newScope.2.scope h.newScope.1 = .empty := Arena.get_push_next _ _
  rw [he] at hv
  cases hv

theorem Heap.newModule_isolated (h : Heap) (x : Name) (places : Option (List Path)) :
    Isolated h h.scopes.next (h.newModule x places).2 := by
  refine .start (h.extends_newModule x places) rfl rfl rfl rfl fun v hv => ?_
  have he : (h.newModule x places).2.scope h.scopes.next = Bindings.empty.insert selfName (.str x) :=
    Arena.get_push_next _ _
  rw [he] at hv
  rcases Bindings.mem_values_insert hv with rfl | hv
  · trivial
  · cases hv

/-- Running a unit in a new namespace leaves every object that was there before as it was, and
whatever can be reached from the namespace afterwards was made by the run, whether the unit runs to
its end or fails. -/
theorem CodeUnit.run_newScope (limit : Nat) (u : CodeUnit) (module : Name) (m : Machine) :
    let scratch := m.heap.newScope.1
    let after := (Run.final (u.run limit scratch module { m with heap := m.heap.newScope.2 })).heap
    m.heap.Extends after ∧
      (∀ v, after.Reaches (.scope scratch) (.value v) → v.MadeBetween m.heap after) ∧
      ∀ s, after.Reaches (.scope scratch) (.scope s) → s = scratch := by
  intro scratch after
  have hi : Isolated m.heap scratch after :=
    (u.run_isolated (m := { m with heap := m.heap.newScope.2 }) (Nat.le_refl _)
      m.heap.newScope_isolated limit module).1
  -- the new namespace is in the closed region, so everything that it reaches is
  have hroot : (Region.fresh m.heap scratch).Has after (.scope scratch) := rfl
  exact ⟨hi.kept, fun v hv => hi.closed.reaches hroot hv, fun s hs => hi.closed.reaches hroot hs⟩

end LivePatch
