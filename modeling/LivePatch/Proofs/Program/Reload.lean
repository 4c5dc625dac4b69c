/-
Reloading a module whose storage is as it was when the module was imported. The places where the storage
is searched for are the same as well, so that the reload finds the unit that the import has found, and
merges it into what the import has made of it.
-/
import LivePatch.Proofs.Module.Replay
import LivePatch.Proofs.Program.Sound

namespace LivePatch

/-! ## Loading again -/

theorem Load.packageDir_of_fromStorage {found : Found} {dir : Option Path} {loaded : ReadUnit}
    (h : fromStorage found dir = .ok (.unit loaded)) : loaded.packageDir = dir := by
  unfold fromStorage at h
  split at h
  · obtain ⟨bytes, -, h⟩ := except_bind_eq_ok.1 h
    obtain ⟨u, -, h⟩ := except_bind_eq_ok.1 h
    cases h
    rfl
  · obtain ⟨bytes, -, h⟩ := except_bind_eq_ok.1 h
    obtain ⟨u, -, h⟩ := except_bind_eq_ok.1 h
    cases h
    rfl
  · cases h
  · cases h

/-- A unit is found again when the code of a package is searched for in the directory of the package. -/
theorem load_again {find : Finder} {leaf : Name} {search : List Path} {loaded : ReadUnit}
    (h : load find leaf search none = .ok (.unit loaded)) :
    load find leaf search (loaded.packageDir.map ([·])) = .ok (.unit loaded) := by
  unfold load at h ⊢
  obtain ⟨found, hf, h⟩ := except_bind_eq_ok.1 h
  refine except_bind_eq_ok.2 ⟨found, hf, ?_⟩
  cases hk : found.kind with
  | packageDirectory =>
    rw [hk] at h
    obtain ⟨code, hcode, h⟩ := except_bind_eq_ok.1 h
    rw [Load.packageDir_of_fromStorage h]
    exact except_bind_eq_ok.2 ⟨code, hcode, h⟩
  | source | compiled | native =>
    rw [hk] at h
    exact h

namespace Program

variable {find : Finder} {name : Name} {m₁ : Machine} {p q : Program} {module : ModuleRef} {loaded : ReadUnit}

/-- What the storage of a module holds at present. -/
def stored (p : Program) (find : Finder) (module : ModuleRef) : Except ModuleError Loaded := do
  let o := p.machine.heap.module module
  let places ← p.searchPlaces o.name o.name.split.1
  load find o.name.split.2 places o.searchPath

theorem reload_of_stored (h : p.stored find module = .ok (.unit loaded)) :
    reload find module p =
      (do let s ← onMachine id (merge p.limit loaded.unit module)
          onHeap fun h => ((), h.setOrigin module loaded.location)
          return (module, some s) : InProgram (ModuleRef × Option Summary)) p := by
  unfold stored at h
  obtain ⟨places, hplaces, hload⟩ := except_bind_eq_ok.1 h
  change (orFail (p.searchPlaces _ _) >>= _) p = _
  rw [hplaces]
  change (orFail (load find _ places _) >>= _) p = _
  rw [hload]
  rfl

theorem searchPlaces_later (hp : p.Sound) (hl : p.machine.heap.Persists q.machine.heap)
    (hroots : q.roots = p.roots) {parent : Option Name}
    (hparent : ∀ x, parent = some x → q.modules.get? x = p.modules.get? x) :
    q.searchPlaces name parent = p.searchPlaces name parent := by
  cases parent with
  | none => exact congrArg Except.ok hroots
  | some x =>
    unfold searchPlaces
    simp only
    rw [hparent x rfl]
    cases hx : p.modules.get? x with
    | none => rfl
    | some m =>
      have hfixed := hl.modules.get m (hp.modules x m hx).module_lt
      have hplaces : (q.machine.heap.module m).searchPath = (p.machine.heap.module m).searchPath :=
        congrArg (·.2.2) hfixed
      simp only
      rw [hplaces]

/-- When a module has been entered, its storage holds what it has been loaded from. -/
theorem Entered.stored {places : List Path} (he : Entered name loaded p module m₁ q) (hp : p.Sound)
    (hplaces : p.searchPlaces name name.split.1 = .ok places)
    (hload : load find name.split.2 places none = .ok (.unit loaded)) :
    q.stored find module = .ok (.unit loaded) := by
  have hname : (q.machine.heap.module module).name = name := congrArg Prod.fst he.fixed
  have hsearch : (q.machine.heap.module module).searchPath = loaded.packageDir.map ([·]) :=
    congrArg (·.2.2) he.fixed
  have hsame : q.searchPlaces name name.split.1 = p.searchPlaces name name.split.1 := by
    refine searchPlaces_later hp he.persists he.roots fun parent hparent => ?_
    rw [he.modules, Bindings.get?_insert, if_neg (Name.parent_ne hparent)]
  unfold Program.stored
  dsimp only
  rw [hname, hsame, hplaces]
  change load find name.split.2 places _ = _
  rw [hsearch]
  exact load_again hload

end Program

/-- An import has found the unit that a reload finds, and has run it in the namespace of the module. -/
theorem Program.importModule_entered {find : Finder} {name : Name} {p q : Program} {module : ModuleRef}
    (hp : p.Sound) (hn : p.modules.get? name = none) (hi : importModule find name p = .ok module q) :
    ∃ loaded p' m₁, Entered name loaded p' module m₁ q ∧ q.stored find module = .ok (.unit loaded) := by
  obtain ⟨p', places, loaded, hp', hplaces, hload, m₁, he⟩ := importModule_ok hn hi
  have hsound : p'.Sound := by
    rcases hp' with rfl | ⟨parent, parents, rfl⟩
    · exact hp
    · exact (keeps_importWithin find parents parent hp).1.sound
  exact ⟨loaded, p', m₁, he, he.stored hsound hplaces hload⟩

/-- Reloading a module right after its import, with its storage unchanged and no value of it that has a
hook, succeeds: it gives the same module, which keeps its names in their order and all its values but instances,
and none is reported as added or removed. Only a unit that looks up the name of its module can fail to reload: this
name is bound by an import and not by a reload. Then the reload has changed nothing. -/
theorem Program.reload_unchanged {find : Finder} {name : Name} {p q : Program} {module : ModuleRef}
    (hp : Reachable p) (hn : p.modules.get? name = none) (hi : importModule find name p = .ok module q)
    (hno : ∀ x v, (q.machine.heap.bindings module).get? x = some v →
      q.machine.heap.attr? v updateHook = none) :
    ∃ loaded, q.stored find module = .ok (.unit loaded) ∧
      ((∃ s r, reload find module q = .ok (module, some s) r ∧ r.modules = q.modules ∧
          s.Renewed (q.machine.heap.bindings module) (r.machine.heap.bindings module)) ∨
        selfName ∈ loaded.unit.reads ∧ ∃ r, reload find module q =
            .error (.failure (.execution name (.undefinedVariable selfName))) r ∧
          r.modules = q.modules ∧ q.machine.heap.Extends r.machine.heap) := by
  obtain ⟨loaded, p', m₁, he, hstored⟩ := importModule_entered hp.sound hn hi
  have hc : q.machine.heap.Closed := by
    have hlater := (keeps_importModule hp.sound find name).1
    rw [hi] at hlater
    exact hlater.sound.closed
  have hran := he.ran
  rw [← he.depth, ← he.limit] at hran
  refine ⟨loaded, hstored, ?_⟩
  rw [reload_of_stored hstored]
  rcases merge_imported hran he.heap hc he.hasModule he.fixed hno with ⟨s, m', hm, hs⟩ | ⟨hread, m', hm, hext⟩
  · have hmerge : onMachine id (merge q.limit loaded.unit module) q = .ok s { q with machine := m' } := by
      unfold onMachine
      rw [hm]
    rw [bind_of_ok hmerge]
    refine .inl ⟨s, _, rfl, rfl, ?_⟩
    change s.Renewed _ ((m'.heap.setOrigin module loaded.location).bindings module)
    rw [Heap.bindings_setOrigin]
    exact hs
  · have hmerge : onMachine id (merge q.limit loaded.unit module) q =
        .error (.failure (.execution name (.undefinedVariable selfName))) { q with machine := m' } := by
      unfold onMachine
      rw [hm]
      rfl
    exact .inr ⟨hread, _, bind_of_error hmerge _, rfl, hext⟩

namespace Sample

/-- A place where every unit binds a name to the name of its module. -/
def selfReader : Finder := fun _ _ =>
  .ok ⟨some ⟨"m.em", .ok "let x = __name__".toUTF8.toList⟩, "m.em", .source⟩

def selfReading : Program := Run.final (Program.importModule selfReader "m" (.start [] 10 .keep))

/-- A place where every unit makes a function, a class and an instance of it. -/
def shapes : Finder := fun _ _ =>
  .ok ⟨some ⟨"m.em", .ok "fn f() = 1\nclass C \x7b\x7d\nlet c = C()".toUTF8.toList⟩, "m.em", .source⟩

def shaped : Program := Run.final (Program.importModule shapes "m" (.start [] 10 .keep))

end Sample

theorem Program.reload_unchanged_either_way :
    (∃ s r, reload Sample.shapes Sample.module Sample.shaped = .ok (Sample.module, some s) r ∧
      s.Renewed (Sample.shaped.machine.heap.bindings Sample.module) (r.machine.heap.bindings Sample.module)) ∧
    ∃ r, reload Sample.selfReader Sample.module Sample.selfReading =
        .error (.failure (.execution "m" (.undefinedVariable selfName))) r ∧
      Sample.selfReading.machine.heap.Extends r.machine.heap := by
  constructor
  · have hi : importModule Sample.shapes "m" (.start [] 10 .keep) = .ok Sample.module Sample.shaped :=
      Run.eq_ok_final (by decide +kernel)
    have hno : ∀ v ∈ (Sample.shaped.machine.heap.bindings Sample.module).values,
        Sample.shaped.machine.heap.attr? v updateHook = none := by decide +kernel
    obtain ⟨_, -, ⟨s, r, hr, -, hs⟩ | ⟨-, r, hr, -⟩⟩ :=
      Program.reload_unchanged (.start [] 10 Fallback.keep_isHost) rfl hi
      fun x v hx => hno v (Bindings.mem_values_of_get? hx)
    · exact ⟨s, r, hr, hs⟩
    · have hok : (Run.value? (reload Sample.shapes Sample.module Sample.shaped)).isSome := by decide +kernel
      rw [hr] at hok
      cases hok
  · have hi : importModule Sample.selfReader "m" (.start [] 10 .keep) =
        .ok Sample.module Sample.selfReading := Run.eq_ok_final (by decide +kernel)
    have hno : ∀ v ∈ (Sample.selfReading.machine.heap.bindings Sample.module).values,
        Sample.selfReading.machine.heap.attr? v updateHook = none := by decide +kernel
    obtain ⟨_, -, ⟨s, r, hr, -⟩ | ⟨-, r, hr, -, hext⟩⟩ :=
      Program.reload_unchanged (.start [] 10 Fallback.keep_isHost) rfl hi
      fun x v hx => hno v (Bindings.mem_values_of_get? hx)
    · have hfails : Run.value? (reload Sample.selfReader Sample.module Sample.selfReading) = none := by
        decide +kernel
      rw [hr] at hfails
      cases hfails
    · exact ⟨r, hr, hext⟩

end LivePatch
