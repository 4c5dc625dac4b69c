/-
What a machine comes to in the hands of its host. A host makes modules, runs units in their namespaces
and merges units into them, calls values, gets and sets attributes, and binds and unbinds names. At every
moment nothing on the heap refers to what is not there, every module is there, and its namespace binds the
module's own name: nothing but the host itself could unbind that name.
-/
import LivePatch.Proofs.Module.Closed
import LivePatch.Proofs.Module.Outcome

namespace LivePatch

/-! ## The module's own name -/

namespace Heap

/-- A namespace that binds the name of a module goes on binding it. -/
def KeepsSelf (h k : Heap) : Prop :=
  ∀ s : ScopeRef, selfName ∈ (h.scope s).names → selfName ∈ (k.scope s).names

namespace KeepsSelf

variable {h k l : Heap}

theorem refl (h : Heap) : h.KeepsSelf h := fun _ hs => hs

theorem trans (a : h.KeepsSelf k) (b : k.KeepsSelf l) : h.KeepsSelf l := fun s hs => b s (a s hs)

/-- Where there is no namespace, no name is bound. -/
theorem of_scopes (hs : ∀ s : ScopeRef, s.index < h.scopes.size → k.scope s = h.scope s) : h.KeepsSelf k := by
  intro s hself
  by_cases hlt : s.index < h.scopes.size
  · rw [hs s hlt]
    exact hself
  · rw [show h.scope s = default from h.scopes.get_of_size_le (Nat.not_lt.1 hlt)] at hself
    cases hself

theorem of_footprint (hf : h.Footprint k) : h.KeepsSelf k := of_scopes fun _ => hf.scope_eq

theorem modifyScope (s : ScopeRef) {f : Bindings Value → Bindings Value}
    (hf : selfName ∈ (h.scope s).names → selfName ∈ (f (h.scope s)).names) :
    h.KeepsSelf (h.modifyScope s f) := by
  intro t ht
  rcases h.scope_modifyScope_or s t f with e | ⟨rfl, e⟩
  · rw [e]
    exact ht
  · rw [e]
    exact hf ht

theorem insert (s : ScopeRef) (x : Name) (v : Value) : h.KeepsSelf (h.modifyScope s (·.insert x v)) := by
  refine modifyScope s fun hself => ?_
  rw [Bindings.names_insert]
  split
  · exact hself
  · exact List.mem_append_left _ hself

theorem erase (s : ScopeRef) {x : Name} (hx : x ≠ selfName) :
    h.KeepsSelf (h.modifyScope s (·.erase x)) := by
  refine modifyScope s fun hself => ?_
  rw [Bindings.names_erase]
  exact List.mem_filter.2 ⟨hself, by simpa using hx.symm⟩

end KeepsSelf

end Heap

/-- The law of code that unbinds no name. -/
def Law.keepsSelf : Law where
  inv _ := True
  step h k := h.KeepsSelf k
  holds _ _ := True
  binds _ := True
  refl := .refl
  trans a b := a.trans b
  later _ _ := trivial
  scalar _ _ _ := trivial
  refs _ _ _ _ := trivial
  newFunction {h o} _ _ := ⟨trivial, .of_footprint (h.extends_newFunction o).footprint, trivial⟩
  newMethod {h o} _ _ := ⟨trivial, .of_footprint (h.extends_newMethod o).footprint, trivial⟩
  newClass {h o} _ _ := ⟨trivial, .of_footprint (h.extends_newClass o).footprint, trivial⟩
  newInstance {h c} _ _ := ⟨trivial, .of_footprint (h.extends_newInstance c).footprint, trivial⟩
  bindName {_ s v} x _ _ _ := ⟨trivial, .insert s x v⟩
  setAttr _ _ _ _ hk := ⟨trivial, .of_footprint (Heap.footprint_setAttr hk)⟩

theorem CodeUnit.run_keepsSelf (limit : Nat) (u : CodeUnit) (globals : ScopeRef) (module : Name) (m : Machine) :
    m.heap.KeepsSelf (Run.final (u.run limit globals module m)).heap := by
  have hkeeps : Run.Keeps .keepsSelf m (u.run limit globals module) fun _ _ => True :=
    CodeUnit.run_keeps trivial limit u trivial trivial module
  exact hkeeps.final.2

namespace Merge

variable {limit : Nat} {u : CodeUnit} {module : ModuleRef} {m m₁ : Machine}

/-- At no stage has a merge unbound the name of a module. -/
theorem Executed.stage_keepsSelf (he : Executed limit u module m m₁) (hm : m.heap.HasModule module)
    {xs todo : List Name} (hxs : sharedNames module m m₁ = xs ++ todo) {a : Stage}
    (hp : Reaches limit module m m₁ xs a) : m.heap.KeepsSelf a.machine.heap := by
  refine he.induct (I := fun _ a => m.heap.KeepsSelf a.machine.heap) ?_ ?_ hxs hp
  · refine .trans (.of_footprint he.isolated.1.kept.footprint) ?_
    rw [opening_heap hm.newScope_ne]
    refine .modifyScope _ fun hself => ?_
    rw [names_opening]
    refine List.mem_append_left _ (List.mem_filter.2 ⟨hself, decide_eq_true fun hr => ?_⟩)
    exact (NameDiff.mem_removed.1 hr).2.2 (List.mem_singleton_self _)
  · intro done x todo a b _ _ _ ha hstep
    cases hstep with
    | unbound => exact ha
    | @bound _ _ up _ k _ _ hu =>
      have hk : a.machine.heap.KeepsSelf k.heap := .of_scopes hu.persists.2
      exact (ha.trans hk).trans (.insert _ x up.value)

end Merge

/-- However a merge ends, it has not unbound the name of a module. -/
theorem merge_keepsSelf (limit : Nat) (u : CodeUnit) {module : ModuleRef} {m : Machine}
    (hm : m.heap.HasModule module) : m.heap.KeepsSelf (Run.final (merge limit u module m)).heap := by
  cases hr : merge limit u module m with
  | ok s m' =>
    obtain ⟨m₁, a, he, hp, -, rfl⟩ := Merge.succeeds hr
    exact he.stage_keepsSelf hm (List.append_nil _).symm hp
  | error e m' =>
    show m.heap.KeepsSelf m'.heap
    rcases Merge.stops hr with ⟨e', hr⟩ | ⟨x, a, old, hook, k, e', m₂, ht, ha, hc, hback⟩
    · exact .of_footprint (Merge.extends_of_unit_error hr).footprint
    · obtain ⟨hscope, hbindings⟩ := ht.journal hm
      obtain ⟨m₁, done, todo, he, hxs, hp⟩ := ht
      obtain ⟨-, new, -, hasks⟩ := ha
      have hf := Run.call_footprint limit hook [old] k
      rw [hc] at hf
      have hkeeps : m.heap.KeepsSelf m₂.heap :=
        (he.stage_keepsSelf hm hxs hp).trans (.of_footprint (hasks.extends.footprint.trans hf))
      rcases hback with rfl | ⟨-, rfl⟩
      · -- the namespace that is put back is the one that the module had
        intro s hs
        unfold Journal.rollback
        rcases Heap.scope_modifyScope_or _ a.journal.scope s fun _ => a.journal.bindings with e | ⟨rfl, e⟩
        · dsimp only
          rw [e]
          rw [Journal.foldl_restore]
          exact hkeeps s hs
        · dsimp only
          rw [e, hbindings]
          rw [hscope] at hs
          exact hs
      · exact hkeeps

/-! ## Machines and their modules -/

/-- The modules and the machine that a host comes to from those that it starts with. -/
inductive Machine.Hosting (ms₀ : List ModuleRef) (m₀ : Machine) : List ModuleRef → Machine → Prop
  | start : Hosting ms₀ m₀ ms₀ m₀
  | made {ms : List ModuleRef} {m : Machine} (h : Hosting ms₀ m₀ ms m) (name : Name)
      (places : Option (List Path)) :
      Hosting ms₀ m₀ ((m.heap.newModule name places).1 :: ms)
        { m with heap := (m.heap.newModule name places).2 }
  | noted {ms : List ModuleRef} {m : Machine} (h : Hosting ms₀ m₀ ms m) (module : ModuleRef) (origin : Path) :
      Hosting ms₀ m₀ ms { m with heap := m.heap.setOrigin module origin }
  | ran {ms : List ModuleRef} {m : Machine} (h : Hosting ms₀ m₀ ms m) (limit : Nat) (u : CodeUnit)
      {module : ModuleRef} (hm : module ∈ ms) (name : Name) :
      Hosting ms₀ m₀ ms (Run.final (u.run limit (m.heap.module module).scope name m))
  | merged {ms : List ModuleRef} {m : Machine} (h : Hosting ms₀ m₀ ms m) (limit : Nat) (u : CodeUnit)
      {module : ModuleRef} (hm : module ∈ ms) : Hosting ms₀ m₀ ms (Run.final (merge limit u module m))
  | called {ms : List ModuleRef} {m : Machine} (h : Hosting ms₀ m₀ ms m) (limit : Nat) {f : Value}
      {args : List Value} (hf : m.heap.There f) (ha : ∀ v ∈ args, m.heap.There v) :
      Hosting ms₀ m₀ ms (Run.final (Run.call limit f args m))
  | got {ms : List ModuleRef} {m : Machine} (h : Hosting ms₀ m₀ ms m) {v : Value} (hv : m.heap.There v)
      (x : Name) : Hosting ms₀ m₀ ms (Run.final (Run.getAttr v x m))
  | set {ms : List ModuleRef} {m : Machine} (h : Hosting ms₀ m₀ ms m) {target v : Value}
      (ht : m.heap.There target) (hv : m.heap.There v) (x : Name) :
      Hosting ms₀ m₀ ms (Run.final (Run.setAttr target x v m))
  | bound {ms : List ModuleRef} {m : Machine} (h : Hosting ms₀ m₀ ms m) {module : ModuleRef} (hm : module ∈ ms)
      (x : Name) {v : Value} (hv : m.heap.There v) :
      Hosting ms₀ m₀ ms { m with heap := m.heap.modifyScope (m.heap.module module).scope (·.insert x v) }
  | unbound {ms : List ModuleRef} {m : Machine} (h : Hosting ms₀ m₀ ms m) {module : ModuleRef}
      (hm : module ∈ ms) {x : Name} (hx : x ≠ selfName) :
      Hosting ms₀ m₀ ms { m with heap := m.heap.modifyScope (m.heap.module module).scope (·.erase x) }

/-- The modules and the machine that a host comes to from nothing. -/
def Machine.Reachable : List ModuleRef → Machine → Prop := Hosting [] ⟨.empty, 0⟩

/-- What a host has kept since the heap `h₀` with the modules `ms₀`: no object is lost, nothing refers to what
is not there, every module is there, and each that was made since binds its own name. -/
structure Heap.Hosts (h₀ : Heap) (ms₀ : List ModuleRef) (h : Heap) (ms : List ModuleRef) : Prop where
  persists : h₀.Persists h
  closed : h.Closed
  modules : ∀ module ∈ ms, h.HasModule module
  named : ∀ module ∈ ms, module ∈ ms₀ ∨ selfName ∈ (h.bindings module).names

namespace Heap.Hosts

variable {h₀ h k : Heap} {ms₀ ms : List ModuleRef}

theorem later (hh : h₀.Hosts ms₀ h ms) (hp : h.Persists k) (hs : h.KeepsSelf k) (hc : k.Closed) :
    h₀.Hosts ms₀ k ms where
  persists := hh.persists.trans hp
  closed := hc
  modules module hm := (hh.modules module hm).later hp
  named module hm := by
    unfold Heap.bindings
    rw [hp.scope_module (hh.modules module hm).module_lt]
    exact (hh.named module hm).imp_right (hs _)

theorem newModule (hh : h₀.Hosts ms₀ h ms) (name : Name) (places : Option (List Path)) :
    h₀.Hosts ms₀ (h.newModule name places).2 ((h.newModule name places).1 :: ms) := by
  have hf := (h.extends_newModule name places).footprint
  obtain ⟨hp, hc, hm, hn⟩ := hh.later hf.persists (.of_footprint hf) (hh.closed.newModule name places)
  refine ⟨hp, hc, fun module hmod => ?_, fun module hmod => ?_⟩
  · rcases List.mem_cons.1 hmod with rfl | hmod
    · exact hasModule_newModule name places
    · exact hm module hmod
  · rcases List.mem_cons.1 hmod with rfl | hmod
    · refine .inr ?_
      unfold Heap.bindings
      rw [module_newModule]
      rw [show (h.newModule name places).2.scope h.scopes.next = _ from Arena.get_push_next _ _]
      exact List.mem_singleton_self _
    · exact hn module hmod

end Heap.Hosts

namespace Machine

variable {ms₀ ms ms' : List ModuleRef} {m₀ m m' : Machine}

theorem Hosting.trans (a : Hosting ms₀ m₀ ms m) (b : Hosting ms m ms' m') : Hosting ms₀ m₀ ms' m' := by
  induction b with
  | start => exact a
  | made _ name places ih => exact ih.made name places
  | noted _ module origin ih => exact ih.noted module origin
  | ran _ limit u hm name ih => exact ih.ran limit u hm name
  | merged _ limit u hm ih => exact ih.merged limit u hm
  | called _ limit hf ha ih => exact ih.called limit hf ha
  | got _ hv x ih => exact ih.got hv x
  | set _ ht hv x ih => exact ih.set ht hv x
  | bound _ hm x hv ih => exact ih.bound hm x hv
  | unbound _ hm hx ih => exact ih.unbound hm hx

/-- By induction on what the host does, one case for each operation. -/
theorem Hosting.hosts (h : Hosting ms₀ m₀ ms m) (hc : m₀.heap.Closed)
    (hm : ∀ module ∈ ms₀, m₀.heap.HasModule module) : m₀.heap.Hosts ms₀ m.heap ms := by
  induction h with
  | start => exact ⟨.refl _, hc, hm, fun _ hmod => .inl hmod⟩
  | made h name places ih => exact ih.newModule name places
  | @noted ms m h module origin ih =>
    exact ih.later (m.heap.persists_setOrigin module origin) (fun _ hs => hs) (ih.closed.setOrigin module origin)
  | @ran ms m h limit u module hm name ih =>
    obtain ⟨hc, hp⟩ := (CodeUnit.run_keeps (L := .closed) (m := m) ih.closed limit u trivial trivial name).final
    exact ih.later hp (u.run_keepsSelf limit _ name m) hc
  | merged h limit u hm ih =>
    have hmod := ih.modules _ hm
    exact ih.later (merge_persists limit u hmod) (merge_keepsSelf limit u hmod)
      (merge_closed limit u hmod ih.closed)
  | @called ms m h limit f args hf ha ih =>
    obtain ⟨hc, hp⟩ := (Run.call_keeps (L := .closed) limit m f args ih.closed hf ha).final
    exact ih.later hp (.of_footprint (Run.call_footprint limit f args m)) hc
  | @got ms m h v hv x ih =>
    obtain ⟨hc, hp⟩ := (Run.getAttr_keeps (L := .closed) ih.closed hv x).final
    exact ih.later hp (.of_footprint (Run.getAttr_footprint v x m)) hc
  | @set ms m h target v ht hv x ih =>
    obtain ⟨hc, hp⟩ := (Run.setAttr_keeps (L := .closed) ih.closed ht hv x).final
    exact ih.later hp (.of_footprint (Run.setAttr_footprint target v x m)) hc
  | @bound ms m h module hm x v hv ih =>
    refine ih.later (m.heap.persists_modifyScope _ _) (.insert _ x v) (ih.closed.modifyScope _ fun b w hw => ?_)
    rcases Bindings.mem_values_insert hw with rfl | hw
    · exact .inr hv
    · exact .inl hw
  | @unbound ms m h module hm x hx ih =>
    exact ih.later (m.heap.persists_modifyScope _ _) (.erase _ hx)
      (ih.closed.modifyScope _ fun b w hw => .inl (Bindings.mem_values_erase hw))

/-- Whatever the host does, the heap is closed, and every module is there and binds its own name. -/
theorem Reachable.hosts (h : Reachable ms m) : m.heap.Closed ∧ (∀ module ∈ ms, m.heap.HasModule module) ∧
    ∀ module ∈ ms, selfName ∈ (m.heap.bindings module).names := by
  have hh := Hosting.hosts h Heap.closed_empty nofun
  exact ⟨hh.closed, hh.modules, fun module hm => (hh.named module hm).resolve_left nofun⟩

end Machine

end LivePatch
