/-
What lasts on a heap. Objects are never taken away, and each has a fixed part that nothing changes:
the name, module and namespace of a function, the name and bases of a class, the class of an
instance, the whole of a method. Three relations between an earlier and a later heap say how much
stays: `Extends` keeps every object as it was, `Footprint` is what a call can do, and `Persists` holds
between any two moments of a program.
-/
import LivePatch.Heap.Attribute

namespace LivePatch

namespace Arena

variable {κ : ObjectKind} {α β γ : Type} [Inhabited α]

/-- No object is lost, and what `π` sees of each stays as it was. -/
structure Keeps (π : α → β) (a b : Arena κ α) : Prop where
  size : a.size ≤ b.size
  get : ∀ r : Ref κ, r.index < a.size → π (b.get r) = π (a.get r)

/-- Where there is no object, the empty one is found. -/
theorem get_of_size_le (a : Arena κ α) {r : Ref κ} (hr : a.size ≤ r.index) : a.get r = default :=
  dif_neg (Nat.not_lt.2 hr)

theorem get_push_or (a : Arena κ α) (x : α) (r : Ref κ) :
    (a.push x).get r = a.get r ∨ (a.push x).get r = x := by
  rcases Nat.lt_trichotomy r.index a.size with hr | hr | hr
  · exact .inl (a.get_push_of_lt x hr)
  · obtain rfl : r = a.next := by cases r; cases hr; rfl
    exact .inr (a.get_push_next x)
  · left
    rw [get_of_size_le _ (by rw [size_push]; exact hr), get_of_size_le _ (Nat.le_of_lt hr)]

namespace Keeps

theorem refl (π : α → β) (a : Arena κ α) : Keeps π a a := ⟨Nat.le_refl _, fun _ _ => rfl⟩

theorem trans {π : α → β} {a b c : Arena κ α} (h₁ : Keeps π a b) (h₂ : Keeps π b c) : Keeps π a c := by
  refine ⟨Nat.le_trans h₁.size h₂.size, fun r hr => ?_⟩
  rw [h₂.get r (Nat.lt_of_lt_of_le hr h₁.size), h₁.get r hr]

theorem push (π : α → β) (a : Arena κ α) (x : α) : Keeps π a (a.push x) := by
  refine ⟨by simp, fun r hr => ?_⟩
  rw [get_push_of_lt a x hr]

theorem modify (π : α → β) (a : Arena κ α) (r : Ref κ) {f : α → α} (hf : ∀ x, π (f x) = π x) :
    Keeps π a (a.modify r f) :=
  ⟨by simp, fun s _ => map_get_modify a r s π hf⟩

theorem modify_new {π : α → β} {a b : Arena κ α} (h : Keeps π a b) {r : Ref κ}
    (hr : a.size ≤ r.index) (f : α → α) : Keeps π a (b.modify r f) := by
  refine ⟨by simpa using h.size, fun s hs => ?_⟩
  have hne : s ≠ r := by rintro rfl; omega
  rw [get_modify_of_ne b f hne, h.get s hs]

theorem coarsen {π : α → β} {a b : Arena κ α} (h : Keeps π a b) (ρ : β → γ) :
    Keeps (fun x => ρ (π x)) a b :=
  ⟨h.size, fun r hr => congrArg ρ (h.get r hr)⟩

end Keeps

end Arena

/-! ## Fixed parts -/

/-- The part of a function that stays: its name, its module, and where its body finds names. -/
def FunctionObject.fixed (o : FunctionObject) : Name × Name × ScopeRef := (o.name, o.module, o.globals)

/-- The part of a function that a call leaves alone: the fixed part, the code and the defaults. -/
def FunctionObject.program (o : FunctionObject) : (Name × Name × ScopeRef) × FunctionCode × List Value :=
  (o.fixed, o.state.code, o.state.defaults)

/-- The part of a class that stays: its name and its bases. -/
def ClassObject.fixed (o : ClassObject) : Name × List ClassRef := (o.name, o.bases)

theorem FunctionObject.eq_of_fixed {a b : FunctionObject} (hf : a.fixed = b.fixed)
    (hs : a.state = b.state) : a = b := by
  cases a; cases b; cases hf; cases hs; rfl

theorem ClassObject.eq_of_fixed {a b : ClassObject} (hf : a.fixed = b.fixed) (hs : a.attrs = b.attrs) :
    a = b := by
  cases a; cases b; cases hf; cases hs; rfl

/-- The part of a module that stays: its name, its namespace and its places. -/
def ModuleObject.fixed (o : ModuleObject) : Name × ScopeRef × Option (List Path) :=
  (o.name, o.scope, o.searchPath)

namespace Heap

/-- Every object of the first heap is in the second, just as it was. -/
structure Extends (h k : Heap) : Prop where
  scopes : h.scopes.Keeps id k.scopes
  functions : h.functions.Keeps id k.functions
  methods : h.methods.Keeps id k.methods
  classes : h.classes.Keeps id k.classes
  instances : h.instances.Keeps id k.instances
  modules : h.modules.Keeps id k.modules

/-- What a call can do to the objects that were there: it can change the doc text and the attributes
of a function, the attributes of a class and the fields of an instance, and nothing else. -/
structure Footprint (h k : Heap) : Prop where
  scopes : h.scopes.Keeps id k.scopes
  functions : h.functions.Keeps FunctionObject.program k.functions
  methods : h.methods.Keeps id k.methods
  classes : h.classes.Keeps ClassObject.fixed k.classes
  instances : h.instances.Keeps InstanceObject.type k.instances
  modules : h.modules.Keeps id k.modules

/-- What holds between any two moments of a program: objects stay, and so do their fixed parts. -/
structure Persists (h k : Heap) : Prop where
  scopes : h.scopes.size ≤ k.scopes.size
  functions : h.functions.Keeps FunctionObject.fixed k.functions
  methods : h.methods.Keeps id k.methods
  classes : h.classes.Keeps ClassObject.fixed k.classes
  instances : h.instances.Keeps InstanceObject.type k.instances
  modules : h.modules.Keeps ModuleObject.fixed k.modules

namespace Extends

theorem refl (h : Heap) : h.Extends h :=
  ⟨.refl _ _, .refl _ _, .refl _ _, .refl _ _, .refl _ _, .refl _ _⟩

theorem trans {h k l : Heap} (a : h.Extends k) (b : k.Extends l) : h.Extends l :=
  ⟨a.scopes.trans b.scopes, a.functions.trans b.functions, a.methods.trans b.methods,
    a.classes.trans b.classes, a.instances.trans b.instances, a.modules.trans b.modules⟩

theorem footprint {h k : Heap} (a : h.Extends k) : h.Footprint k :=
  ⟨a.scopes, a.functions.coarsen _, a.methods, a.classes.coarsen _, a.instances.coarsen _, a.modules⟩

end Extends

namespace Footprint

theorem refl (h : Heap) : h.Footprint h := (Extends.refl h).footprint

theorem trans {h k l : Heap} (a : h.Footprint k) (b : k.Footprint l) : h.Footprint l :=
  ⟨a.scopes.trans b.scopes, a.functions.trans b.functions, a.methods.trans b.methods,
    a.classes.trans b.classes, a.instances.trans b.instances, a.modules.trans b.modules⟩

theorem persists {h k : Heap} (a : h.Footprint k) : h.Persists k :=
  ⟨a.scopes.size, a.functions.coarsen Prod.fst, a.methods, a.classes, a.instances,
    a.modules.coarsen _⟩

theorem scope_eq {h k : Heap} (a : h.Footprint k) {s : ScopeRef} (hs : s.index < h.scopes.size) :
    k.scope s = h.scope s := a.scopes.get s hs

end Footprint

namespace Persists

theorem refl (h : Heap) : h.Persists h := (Footprint.refl h).persists

theorem trans {h k l : Heap} (a : h.Persists k) (b : k.Persists l) : h.Persists l :=
  ⟨Nat.le_trans a.scopes b.scopes, a.functions.trans b.functions, a.methods.trans b.methods,
    a.classes.trans b.classes, a.instances.trans b.instances, a.modules.trans b.modules⟩

end Persists

/-! ## New objects -/

variable (h : Heap)

theorem extends_newScope : h.Extends h.newScope.2 := { Extends.refl h with scopes := .push _ _ _ }

theorem extends_newFunction (o : FunctionObject) : h.Extends (h.newFunction o).2 :=
  { Extends.refl h with functions := .push _ _ _ }

theorem extends_newMethod (o : MethodObject) : h.Extends (h.newMethod o).2 :=
  { Extends.refl h with methods := .push _ _ _ }

theorem extends_newClass (o : ClassObject) : h.Extends (h.newClass o).2 :=
  { Extends.refl h with classes := .push _ _ _ }

theorem extends_newInstance (c : ClassRef) : h.Extends (h.newInstance c).2 :=
  { Extends.refl h with instances := .push _ _ _ }

theorem extends_newModule (x : Name) (places : Option (List Path)) :
    h.Extends (h.newModule x places).2 :=
  { Extends.refl h with scopes := .push _ _ _, modules := .push _ _ _ }

theorem extends_obtain (a : Attribute) : h.Extends (h.obtain a).2 := by
  cases a with
  | value v => exact .refl h
  | bound r f => exact h.extends_newMethod ⟨r, f⟩

/-! ## Changed objects -/

theorem scope_modifyScope_or (r s : ScopeRef) (f : Bindings Value → Bindings Value) :
    (h.modifyScope r f).scope s = h.scope s ∨
      s = r ∧ (h.modifyScope r f).scope s = f (h.scope s) :=
  Arena.get_modify_or _ _ _ _

theorem modifyScope_modifyScope (r : ScopeRef) (f g : Bindings Value → Bindings Value) :
    (h.modifyScope r f).modifyScope r g = h.modifyScope r fun b => g (f b) :=
  congrArg (fun a => { h with scopes := a }) (Arena.modify_modify h.scopes r f g)

theorem modifyScope_id (r : ScopeRef) : h.modifyScope r (fun b => b) = h :=
  congrArg (fun a => { h with scopes := a }) (Arena.modify_id h.scopes r)

theorem type_modifyAttrs_self {c : ClassRef} (hc : c.index < h.classes.size)
    (f : Bindings Value → Bindings Value) :
    (h.modifyAttrs c f).type c = { h.type c with attrs := f (h.type c).attrs } :=
  Arena.get_modify_self h.classes _ hc

theorem type_modifyAttrs_of_ne {c e : ClassRef} (he : e ≠ c) (f : Bindings Value → Bindings Value) :
    (h.modifyAttrs c f).type e = h.type e := Arena.get_modify_of_ne h.classes _ he

theorem function_modifyFunction_self {r : FunctionRef} (hr : r.index < h.functions.size)
    (f : FunctionState → FunctionState) :
    (h.modifyFunction r f).function r = { h.function r with state := f (h.function r).state } :=
  Arena.get_modify_self h.functions _ hr

theorem function_modifyFunction_of_ne {r e : FunctionRef} (he : e ≠ r)
    (f : FunctionState → FunctionState) : (h.modifyFunction r f).function e = h.function e :=
  Arena.get_modify_of_ne h.functions _ he

theorem footprint_modifyFields (r : InstanceRef) (f : Bindings Value → Bindings Value) :
    h.Footprint (h.modifyFields r f) :=
  { Footprint.refl h with instances := .modify _ _ _ fun _ => rfl }

theorem footprint_modifyAttrs (r : ClassRef) (f : Bindings Value → Bindings Value) :
    h.Footprint (h.modifyAttrs r f) :=
  { Footprint.refl h with classes := .modify _ _ _ fun _ => rfl }

theorem footprint_setFunctionAttrs (r : FunctionRef) (f : FunctionState → Bindings Value) :
    h.Footprint (h.modifyFunction r fun s => { s with attrs := f s }) :=
  { Footprint.refl h with functions := .modify _ _ _ fun _ => rfl }

theorem footprint_setDoc (r : FunctionRef) (doc : Option String) :
    h.Footprint (h.modifyFunction r fun s => { s with doc }) :=
  { Footprint.refl h with functions := .modify _ _ _ fun _ => rfl }

theorem persists_modifyFunction (r : FunctionRef) (f : FunctionState → FunctionState) :
    h.Persists (h.modifyFunction r f) :=
  { Persists.refl h with functions := .modify _ _ _ fun _ => rfl }

theorem persists_modifyScope (r : ScopeRef) (f : Bindings Value → Bindings Value) :
    h.Persists (h.modifyScope r f) :=
  { Persists.refl h with scopes := Nat.le_of_eq (Arena.size_modify _ _ _).symm }

theorem persists_setOrigin (r : ModuleRef) (origin : Path) : h.Persists (h.setOrigin r origin) :=
  { Persists.refl h with modules := .modify _ _ _ fun _ => rfl }

/-! ## Modules -/

/-- A module on the heap, with its namespace. -/
structure HasModule (module : ModuleRef) : Prop where
  module_lt : module.index < h.modules.size
  scope_lt : (h.module module).scope.index < h.scopes.size

def bindings (module : ModuleRef) : Bindings Value := h.scope (h.module module).scope

variable {h}

theorem module_newModule (x : Name) (places : Option (List Path)) :
    (h.newModule x places).2.module (h.newModule x places).1 = ⟨x, h.scopes.next, places, none⟩ :=
  Arena.get_push_next _ _

theorem hasModule_newModule (x : Name) (places : Option (List Path)) :
    (h.newModule x places).2.HasModule (h.newModule x places).1 := by
  constructor
  · show h.modules.size < (h.modules.push _).size
    simp
  · rw [module_newModule]
    show h.scopes.size < (h.scopes.push _).size
    simp

/-- The namespace of a module is always the same. -/
theorem Persists.scope_module {k : Heap} (a : h.Persists k) {module : ModuleRef}
    (hm : module.index < h.modules.size) : (k.module module).scope = (h.module module).scope :=
  congrArg (fun o => o.2.1) (a.modules.get module hm)

theorem HasModule.later {k : Heap} {module : ModuleRef} (hm : h.HasModule module) (a : h.Persists k) :
    k.HasModule module := by
  refine ⟨Nat.lt_of_lt_of_le hm.module_lt a.modules.size, ?_⟩
  rw [a.scope_module hm.module_lt]
  exact Nat.lt_of_lt_of_le hm.scope_lt a.scopes

theorem Extends.bindings_eq {k : Heap} (a : h.Extends k) {module : ModuleRef} (hm : h.HasModule module) :
    k.bindings module = h.bindings module := by
  unfold bindings
  rw [a.footprint.persists.scope_module hm.module_lt]
  exact a.scopes.get _ hm.scope_lt

theorem bindings_setOrigin (r : ModuleRef) (origin : Path) (module : ModuleRef) :
    (h.setOrigin r origin).bindings module = h.bindings module :=
  congrArg h.scope (h.modules.map_get_modify r module ModuleObject.scope fun _ => rfl)

/-- A new namespace is not the one of a module. -/
theorem HasModule.newScope_ne {module : ModuleRef} (hm : h.HasModule module) :
    h.newScope.1 ≠ (h.module module).scope := by
  intro he
  have hlt := hm.scope_lt
  rw [← he] at hlt
  exact Nat.lt_irrefl _ hlt

end Heap

end LivePatch
