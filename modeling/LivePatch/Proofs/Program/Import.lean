/-
Importing a module. Whatever an import loads before, packages and their units, it ends by entering the
module itself: it makes the module, runs its unit in the module's own namespace and notes where the
unit came from. What the unit makes belongs to the module.
-/
import LivePatch.Program
import LivePatch.Proofs.Machine.Isolation
import LivePatch.Proofs.Machine.Limit
import LivePatch.Proofs.Sequence

namespace LivePatch

/-- However a unit ends that runs in the namespace of a new module, it leaves every other object as it was and
loses nothing. -/
theorem CodeUnit.isolated_newModule (u : CodeUnit) (limit : Nat) (h : Heap) (name : Name)
    (places : Option (List Path)) (d : Nat) :
    let k := Run.final (u.run limit h.scopes.next name ⟨(h.newModule name places).2, d⟩)
    Isolated h h.scopes.next k.heap ∧ (h.newModule name places).2.Persists k.heap :=
  u.run_isolated (m := ⟨_, d⟩) (show h.scopes.size ≤ h.scopes.next.index from Nat.le_refl _)
    (h.newModule_isolated name places) limit name

/-- A unit that runs in the namespace of a new module leaves every other object as it was, loses nothing,
and ends at the depth it starts at. -/
theorem CodeUnit.run_newModule {h : Heap} {name : Name} {places : Option (List Path)} {limit d : Nat}
    {u : CodeUnit} {m : Machine}
    (hr : u.run limit h.scopes.next name ⟨(h.newModule name places).2, d⟩ = .ok () m) :
    Isolated h h.scopes.next m.heap ∧ (h.newModule name places).2.Persists m.heap ∧ m.depth = d := by
  have hi := u.isolated_newModule limit h name places d
  rw [hr] at hi
  exact ⟨hi.1, hi.2, (u.run_level limit _ name).depth_eq hr⟩

namespace Program

variable {find : Finder} {name : Name} {p p₀ : Program} {module : ModuleRef}

/-! ## Entering a module -/

/-- The program `q` has entered a module, whose unit has run on the heap of `p` until the machine `m₁`. -/
structure Entered (name : Name) (loaded : ReadUnit) (p : Program) (module : ModuleRef) (m₁ : Machine)
    (q : Program) : Prop where
  ran : loaded.unit.run p.limit p.machine.heap.scopes.next name
    ⟨(p.machine.heap.newModule name (loaded.packageDir.map ([·]))).2, p.machine.depth⟩ = .ok () m₁
  heap : q.machine.heap = m₁.heap.setOrigin module loaded.location
  depth : q.machine.depth = p.machine.depth
  made : module = p.machine.heap.modules.next
  /-- What the module has made by then is its own. -/
  isolated : Isolated p.machine.heap p.machine.heap.scopes.next m₁.heap
  hasModule : q.machine.heap.HasModule module
  fixed : (q.machine.heap.module module).fixed =
    (name, p.machine.heap.scopes.next, loaded.packageDir.map ([·]))
  modules : q.modules = p.modules.insert name module
  roots : q.roots = p.roots
  limit : q.limit = p.limit

/-- A module that is entered leaves every object as it was. -/
theorem Entered.extends {loaded : ReadUnit} {m₁ : Machine} (he : Entered name loaded p module m₁ p₀) :
    p.machine.heap.Extends p₀.machine.heap := by
  have hkept := he.isolated.kept
  have hnew : p.machine.heap.modules.size ≤ module.index := by
    rw [he.made]
    exact Nat.le_refl _
  rw [he.heap]
  exact { hkept with modules := hkept.modules.modify_new hnew _ }

theorem Entered.persists {loaded : ReadUnit} {m₁ : Machine} (he : Entered name loaded p module m₁ p₀) :
    p.machine.heap.Persists p₀.machine.heap := he.extends.footprint.persists

theorem Entered.get?_self {loaded : ReadUnit} {m₁ : Machine}
    (he : Entered name loaded p module m₁ p₀) : p₀.modules.get? name = some module := by
  rw [he.modules, Bindings.get?_insert, if_pos rfl]

/-- What can fail when a module is entered is its unit. -/
theorem enter_eq (name : Name) (loaded : ReadUnit) (p : Program) :
    let heap := (p.machine.heap.newModule name (loaded.packageDir.map ([·]))).2
    let module := p.machine.heap.modules.next
    enter name loaded p =
      match loaded.unit.run p.limit p.machine.heap.scopes.next name ⟨heap, p.machine.depth⟩ with
      | .ok () m₁ =>
        .ok module { p with
          machine := { m₁ with heap := m₁.heap.setOrigin module loaded.location }
          modules := p.modules.insert ((m₁.heap.setOrigin module loaded.location).module module).name module }
      | .error e m₁ => .error (e.map (.execution name)) { p with machine := m₁ } := by
  intro heap module
  have hmade := Heap.module_newModule (h := p.machine.heap) name (loaded.packageDir.map ([·]))
  have hscope : (heap.module module).scope = p.machine.heap.scopes.next := congrArg ModuleObject.scope hmade
  rw [← hscope]
  -- the module is made, and its unit is all that is left to run
  let run := loaded.unit.run p.limit (heap.module module).scope name
  let made : Program := { p with machine := ⟨heap, p.machine.depth⟩ }
  change (onMachine (.execution name) run >>= _) made = _
  cases hr : run made.machine with
  | ok a m₁ =>
    have hrun : onMachine (.execution name) run made = .ok a { p with machine := m₁ } := by
      unfold onMachine
      rw [hr]
    rw [bind_of_ok hrun, show loaded.unit.run _ _ _ _ = _ from hr]
    rfl
  | error e m₁ =>
    have hrun : onMachine (.execution name) run made =
        .error (e.map (.execution name)) { p with machine := m₁ } := by
      unfold onMachine
      rw [hr]
    rw [bind_of_error hrun, show loaded.unit.run _ _ _ _ = _ from hr]

theorem enter_ok {loaded : ReadUnit} (h : enter name loaded p = .ok module p₀) :
    ∃ m₁, Entered name loaded p module m₁ p₀ := by
  rw [enter_eq] at h
  split at h
  · rename_i m₁ hran
    cases h
    obtain ⟨hi, hp, hd⟩ := CodeUnit.run_newModule hran
    have hm := Heap.hasModule_newModule (h := p.machine.heap) name (loaded.packageDir.map ([·]))
    have hmade := Heap.module_newModule (h := p.machine.heap) name (loaded.packageDir.map ([·]))
    have hp := hp.trans (m₁.heap.persists_setOrigin p.machine.heap.modules.next loaded.location)
    have hfixed := (hp.modules.get _ hm.module_lt).trans (congrArg ModuleObject.fixed hmade)
    exact ⟨m₁, {
      ran := hran
      heap := rfl
      depth := hd
      made := rfl
      isolated := hi
      hasModule := hm.later hp
      fixed := hfixed
      modules := congrArg (p.modules.insert · _) (congrArg Prod.fst hfixed)
      roots := rfl
      limit := rfl }⟩
  · cases h

/-- A unit that fails has left every object as it was, and its module is not entered. -/
theorem enter_error {loaded : ReadUnit} {e : Halt ModuleError} (h : enter name loaded p = .error e p₀) :
    p₀.modules = p.modules ∧ p.machine.heap.Extends p₀.machine.heap := by
  rw [enter_eq] at h
  split at h
  · cases h
  · rename_i hr
    cases h
    have hi := (loaded.unit.isolated_newModule p.limit p.machine.heap name (loaded.packageDir.map ([·]))
      p.machine.depth).1
    rw [hr] at hi
    exact ⟨rfl, hi.kept⟩

theorem orFail_ok {α : Type} {x : Except ModuleError α} {a : α} {q : Program}
    (h : orFail x p = .ok a q) : x = .ok a ∧ q = p := by
  cases x with
  | ok b => cases h; exact ⟨rfl, rfl⟩
  | error e => cases h

theorem orFail_error {α : Type} {x : Except ModuleError α} {e : Halt ModuleError}
    (h : orFail x p = .error e p₀) : (∃ e', x = .error e' ∧ e = .failure e') ∧ p₀ = p := by
  cases x with
  | ok a => cases h
  | error e' =>
    cases h
    exact ⟨⟨e', rfl, rfl⟩, rfl⟩

theorem loadNew_ok {parent : Option Name} (h : loadNew find name parent p = .ok module p₀) :
    ∃ places loaded, p.searchPlaces name parent = .ok places ∧
      load find name.split.2 places none = .ok (.unit loaded) ∧ ∃ m₁, Entered name loaded p module m₁ p₀ := by
  unfold loadNew at h
  obtain ⟨_, _, hget, h₁⟩ := bind_ok h
  obtain ⟨places, _, h₂, h₃⟩ := bind_ok h₁
  obtain ⟨l, _, h₄, h₅⟩ := bind_ok h₃
  clear h h₁ h₃
  cases hget
  obtain ⟨hplaces, rfl⟩ := orFail_ok h₂
  obtain ⟨hload, rfl⟩ := orFail_ok h₄
  cases l with
  | unit loaded => exact ⟨places, loaded, hplaces, hload, enter_ok h₅⟩
  | unsupported location kind => cases h₅

/-- A module that cannot be loaded is not entered, and every object is as it was. -/
theorem loadNew_error {parent : Option Name} {e : Halt ModuleError}
    (h : loadNew find name parent p = .error e p₀) :
    p₀.modules = p.modules ∧ p.machine.heap.Extends p₀.machine.heap := by
  unfold loadNew at h
  rcases bind_error h with hget | ⟨_, _, hget, h₁⟩
  · cases hget
  cases hget
  rcases bind_error h₁ with hplaces | ⟨_, _, hplaces, h₂⟩
  · obtain ⟨-, rfl⟩ := orFail_error hplaces
    exact ⟨rfl, .refl _⟩
  obtain ⟨-, rfl⟩ := orFail_ok hplaces
  rcases bind_error h₂ with hload | ⟨l, _, hload, h₃⟩
  · obtain ⟨-, rfl⟩ := orFail_error hload
    exact ⟨rfl, .refl _⟩
  obtain ⟨-, rfl⟩ := orFail_ok hload
  cases l with
  | unit loaded => exact enter_error h₃
  | unsupported location kind =>
    cases h₃
    exact ⟨rfl, .refl _⟩

/-! ## Importing it -/

theorem get_bind {α : Type} (f : Program → InProgram α) : (get >>= f) p = f p p := rfl

/-- A module that is entered is given at once: nothing is searched for, and nothing happens. -/
theorem importWithin_of_entered (find : Finder) (hx : p.modules.get? name = some module) (parents : List Name) :
    importWithin find name parents p = .ok module p := by
  cases parents <;>
  · rw [importWithin, get_bind, hx]
    rfl

theorem importWithin_nil (find : Finder) (hn : p.modules.get? name = none) :
    importWithin find name [] p = loadNew find name none p := by
  rw [importWithin, get_bind, hn]

theorem importWithin_cons (find : Finder) (hn : p.modules.get? name = none) (parent : Name)
    (parents : List Name) : importWithin find name (parent :: parents) p =
      (importWithin find parent parents >>= fun _ => loadNew find name (some parent)) p := by
  rw [importWithin, get_bind, hn]

/-- An import of a module that is not loaded ends by entering it, when the packages it lies in are
imported. -/
theorem importModule_ok (hn : p.modules.get? name = none)
    (h : importModule find name p = .ok module p₀) :
    ∃ p' places loaded, (p' = p ∨ ∃ parent parents, p' = Run.final (importWithin find parent parents p)) ∧
      p'.searchPlaces name name.split.1 = .ok places ∧
      load find name.split.2 places none = .ok (.unit loaded) ∧ ∃ m₁, Entered name loaded p' module m₁ p₀ := by
  unfold importModule at h
  rw [Name.parents_eq] at h
  cases hs : name.split.1 with
  | none =>
    rw [hs, importWithin_nil find hn] at h
    obtain ⟨places, loaded, hfound⟩ := loadNew_ok h
    exact ⟨p, places, loaded, .inl rfl, hfound⟩
  | some parent =>
    rw [hs, importWithin_cons find hn] at h
    obtain ⟨_, p', hparent, h₁⟩ := bind_ok h
    obtain ⟨places, loaded, hfound⟩ := loadNew_ok h₁
    obtain rfl : Run.final _ = p' := congrArg Run.final hparent
    exact ⟨_, places, loaded, .inr ⟨_, _, rfl⟩, hfound⟩

end Program

end LivePatch
