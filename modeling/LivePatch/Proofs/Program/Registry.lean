/-
The registry of loaded modules. An import enters a module for its name and for each package that it lies
in, the outermost first, and only where none is entered yet; a reload enters nothing. So the registry only
grows, and what an import that fails has entered are packages. Each module is entered under its own name,
and a module that lies in a package is entered after it: no reload misses the package of its module.
-/
import LivePatch.Proofs.Program.Sound

namespace LivePatch

/-! ## Errors about packages -/

/-- The package that a module lies in is not loaded, or is none. -/
def ModuleError.Unplaced (e : ModuleError) : Prop :=
  ∃ module package, e = .unknownPackage module package ∨ e = .notPackage module package

/-- A search that never fails because of a package. -/
def Finder.AsksNoPackage (find : Finder) : Prop :=
  ∀ x search e, find x search = .error e → ¬ e.Unplaced

/-- A fallback that never fails because of a package. -/
def Fallback.AsksNoPackage (f : Fallback) : Prop :=
  ∀ module location kind m e m', f.reload module location kind m = .error (.failure e) m' → ¬ e.Unplaced

theorem Fallback.keep_asksNoPackage : keep.AsksNoPackage := by
  intro module location kind m e m' h
  cases h

theorem ModuleError.not_unplaced_file {path : Path} {e : FileError} : ¬ (file path e).Unplaced := by
  rintro ⟨_, _, h | h⟩ <;> cases h

theorem Storage.file?_error {fs : Files} {root : Path} {x : Name} {extension : String} {kind : StorageKind}
    {e : ModuleError} (h : file? fs root x extension kind = some (.error e)) : ¬ e.Unplaced := by
  unfold file? at h
  dsimp only at h
  split at h
  · split at h
    · cases h
    · cases h
      exact ModuleError.not_unplaced_file
  · cases h

/-- What files can be searched for asks for no package. -/
theorem Storage.inFiles_asksNoPackage (fs : Files) : (inFiles fs).AsksNoPackage := by
  intro x search e h
  unfold inFiles at h
  split at h
  · rename_i hfound
    obtain ⟨root, -, hroot⟩ := List.exists_of_findSome?_eq_some hfound
    rw [h] at hroot
    unfold inRoot? at hroot
    split at hroot
    · cases hroot
    · obtain ⟨_, -, hfile⟩ := List.exists_of_findSome?_eq_some hroot
      exact file?_error hfile
  · cases h
    rintro ⟨_, _, h | h⟩ <;> cases h

theorem Load.fromStorage_error {found : Found} {dir : Option Path} {e : ModuleError}
    (h : fromStorage found dir = .error e) : ¬ e.Unplaced := by
  have hbytes : ∀ e, bytesOf found = .error e → ¬ e.Unplaced := by
    unfold bytesOf
    intro e h
    split at h
    · rename_i s _
      cases hs : s.contents <;> rw [hs] at h <;> cases h
      exact ModuleError.not_unplaced_file
    · cases h
      exact ModuleError.not_unplaced_file
  have hsource : ∀ bytes e, fromSource found.location bytes = .error e → ¬ e.Unplaced := by
    unfold fromSource
    rintro bytes e h ⟨_, _, rfl | rfl⟩ <;> split at h <;> try cases h
    all_goals split at h <;> cases h
  have hcompiled : ∀ bytes e, fromCompiled found.location bytes = .error e → ¬ e.Unplaced := by
    unfold fromCompiled
    rintro bytes e h ⟨_, _, rfl | rfl⟩ <;> split at h <;> cases h
  unfold fromStorage at h
  split at h
  · rcases except_bind_eq_error h with h | ⟨bytes, -, h⟩
    · exact hbytes e h
    rcases except_bind_eq_error h with h | ⟨u, -, h⟩
    · exact hsource bytes e h
    · cases h
  · rcases except_bind_eq_error h with h | ⟨bytes, -, h⟩
    · exact hbytes e h
    rcases except_bind_eq_error h with h | ⟨u, -, h⟩
    · exact hcompiled bytes e h
    · cases h
  · cases h
  · cases h

/-- Loading a unit asks for no package. -/
theorem load_error {find : Finder} (hfind : find.AsksNoPackage) {leaf : Name} {search : List Path}
    {places : Option (List Path)} {e : ModuleError} (h : load find leaf search places = .error e) :
    ¬ e.Unplaced := by
  unfold load at h
  rcases except_bind_eq_error h with h | ⟨found, -, h⟩
  · exact hfind _ _ _ h
  split at h
  · rcases except_bind_eq_error h with h | ⟨code, -, h⟩
    · exact hfind _ _ _ h
    · exact Load.fromStorage_error h
  · exact Load.fromStorage_error h

/-- Neither does merging one. -/
theorem merge_error {limit : Nat} {u : CodeUnit} {module : ModuleRef} {m m' : Machine} {e : ModuleError}
    (h : merge limit u module m = .error (.failure e) m') : ¬ e.Unplaced := by
  unfold merge at h
  simp only at h
  split at h
  · unfold Merge.apply at h
    simp only at h
    split at h
    · cases h
    · rename_i e' _ _ hstops
      cases h
      obtain ⟨_, x, _, _, _, _, _, source, -, -, -, -, he, -⟩ :=
        Merge.updateNames_stops (a := ⟨_, _, _⟩) _ hstops
      cases source <;> cases he
      rintro ⟨_, _, h | h⟩ <;> cases h
    · cases h
  · rename_i e' _ _
    injection h with he
    cases e' <;> cases he
    rintro ⟨_, _, h | h⟩ <;> cases h

namespace Program

variable {find : Finder} {name : Name} {p q r : Program} {module : ModuleRef} {loaded : ReadUnit}
  {m₁ : Machine}

/-! ## Importing -/

/-- A program later on: every object and every entry is as it was, and modules are entered at most under
some names. -/
structure Gains (names : List Name) (p q : Program) : Prop where
  heap : p.machine.heap.Extends q.machine.heap
  kept : ∀ {x module}, p.modules.get? x = some module → q.modules.get? x = some module
  only : ∀ {x}, x ∉ names → q.modules.get? x = p.modules.get? x

namespace Gains

variable {names : List Name}

theorem refl (names : List Name) (p : Program) : Gains names p p := ⟨.refl _, id, fun _ => rfl⟩

theorem mono {more : List Name} (hg : Gains names p q) (hs : names ⊆ more) : Gains more p q :=
  ⟨hg.heap, hg.kept, fun hx => hg.only fun hm => hx (hs hm)⟩

/-- A part that enters nothing. -/
theorem same (hg : Gains names p q) (hm : r.modules = q.modules)
    (hh : q.machine.heap.Extends r.machine.heap) : Gains names p r := by
  refine ⟨hg.heap.trans hh, fun hx => ?_, fun hx => ?_⟩
  · rw [hm]
    exact hg.kept hx
  · rw [hm]
    exact hg.only hx

/-- A module is entered under a name that had none. -/
theorem enter (hg : Gains names p q) (hn : p.modules.get? name = none)
    (he : Entered name loaded q module m₁ r) : Gains (name :: names) p r := by
  refine ⟨hg.heap.trans he.extends, fun {x module'} hx => ?_, fun {x} hx => ?_⟩
  · have hne : x ≠ name := by
      rintro rfl
      rw [hn] at hx
      cases hx
    rw [he.modules, Bindings.get?_insert, if_neg hne]
    exact hg.kept hx
  · rw [List.mem_cons, not_or] at hx
    rw [he.modules, Bindings.get?_insert, if_neg hx.1]
    exact hg.only hx.2

end Gains

/-- What an import comes to. It gives the module that is entered under the name, and has entered modules at most
for the name and its packages; when it fails, at most for the packages. -/
inductive Imports (name : Name) (parents : List Name) (p : Program) :
    EStateM.Result (Halt ModuleError) Program ModuleRef → Prop
  | given {module : ModuleRef} {q : Program} (hg : Gains (name :: parents) p q)
      (hx : q.modules.get? name = some module) : Imports name parents p (.ok module q)
  | failed {e : Halt ModuleError} {q : Program} (hg : Gains parents p q) : Imports name parents p (.error e q)

/-- When the packages are imported, the module itself is loaded. -/
theorem Gains.loadNew {parents : List Name} (hg : Gains parents p q) (find : Finder)
    (hn : p.modules.get? name = none) (parent : Option Name) :
    Imports name parents p (loadNew find name parent q) := by
  cases hr : Program.loadNew find name parent q with
  | ok module r =>
    obtain ⟨-, loaded, -, -, m₁, he⟩ := loadNew_ok hr
    exact .given (hg.enter hn he) he.get?_self
  | error e r =>
    obtain ⟨hm, hh⟩ := loadNew_error hr
    exact .failed (hg.same hm hh)

/-- By induction on the packages. -/
theorem importWithin_imports (find : Finder) (name : Name) (parents : List Name) (p : Program) :
    Imports name parents p (importWithin find name parents p) := by
  induction parents generalizing name with
  | nil =>
    cases hn : p.modules.get? name with
    | some m =>
      rw [importWithin_of_entered find hn]
      exact .given (.refl _ _) hn
    | none =>
      rw [importWithin_nil find hn]
      exact (Gains.refl [] p).loadNew find hn none
  | cons parent parents ih =>
    cases hn : p.modules.get? name with
    | some m =>
      rw [importWithin_of_entered find hn]
      exact .given (.refl _ _) hn
    | none =>
      rw [importWithin_cons find hn]
      have hparent := ih parent
      cases hr : importWithin find parent parents p with
      | ok m q =>
        rw [bind_of_ok hr]
        rw [hr] at hparent
        cases hparent with
        | given hg => exact hg.loadNew find hn (some parent)
      | error e q =>
        rw [bind_of_error hr]
        rw [hr] at hparent
        cases hparent with
        | failed hg => exact .failed (hg.mono (List.subset_cons_self ..))

theorem importWithin_ok (parents : List Name) (h : importWithin find name parents p = .ok module q) :
    Gains (name :: parents) p q ∧ q.modules.get? name = some module := by
  have hi := importWithin_imports find name parents p
  rw [h] at hi
  cases hi with
  | given hg hx => exact ⟨hg, hx⟩

theorem importWithin_error (parents : List Name) {e : Halt ModuleError}
    (h : importWithin find name parents p = .error e q) : Gains parents p q := by
  have hi := importWithin_imports find name parents p
  rw [h] at hi
  cases hi with
  | failed hg => exact hg

/-! ## Reloading -/

section

variable {α β : Type}

/-- However the run ends, the same modules are entered. -/
def EntersNone (x : InProgram α) : Prop := ∀ p, (Run.final (x p)).modules = p.modules

theorem entersNone_bind {x : InProgram α} {f : α → InProgram β} (hx : EntersNone x)
    (hf : ∀ a, EntersNone (f a)) : EntersNone (x >>= f) := by
  intro p
  have hx := hx p
  cases hr : x p with
  | ok a q =>
    rw [hr] at hx
    rw [bind_of_ok hr]
    exact (hf a q).trans hx
  | error e q =>
    rw [hr] at hx
    rw [bind_of_error hr]
    exact hx

theorem entersNone_orFail (x : Except ModuleError α) : EntersNone (orFail x) := by
  cases x <;> exact fun _ => rfl

theorem entersNone_onMachine {ε : Type} (reword : ε → ModuleError) (x : EStateM (Halt ε) Machine α) :
    EntersNone (onMachine reword x) := by
  intro p
  unfold onMachine
  cases x p.machine <;> rfl

theorem entersNone_delegate (module : ModuleRef) (d : Delegation) : EntersNone (delegate module d) :=
  fun p => entersNone_onMachine id _ { p with delegations := d :: p.delegations }

end

theorem entersNone_reload (find : Finder) (module : ModuleRef) : EntersNone (reload find module) := by
  refine entersNone_bind (fun _ => rfl) fun p => ?_
  refine entersNone_bind (entersNone_orFail _) fun places => ?_
  refine entersNone_bind (entersNone_orFail _) fun l => ?_
  cases l with
  | unsupported location kind => exact entersNone_bind (entersNone_delegate _ _) fun _ => fun _ => rfl
  | unit loaded =>
    refine entersNone_bind (entersNone_onMachine _ _) fun s => ?_
    exact entersNone_bind (fun _ => rfl) fun _ => fun _ => rfl

/-! ## Importing again -/

/-- Whatever is imported, every object and every entry is as it was. -/
theorem importModule_gains (find : Finder) (name : Name) (p : Program) :
    Gains (name :: name.parents) p (Run.final (importModule find name p)) := by
  cases hr : importModule find name p with
  | ok module q => exact (importWithin_ok name.parents hr).1
  | error e q => exact (importWithin_error name.parents hr).mono (List.subset_cons_self ..)

/-- The programs that follow one in which a module is entered under a name. They import and reload whatever
they like, and the machine does other work; but the host enters no other module under this name. -/
inductive Follows (name : Name) (module : ModuleRef) (p : Program) : Program → Prop
  | start : Follows name module p p
  | imported {q : Program} (h : Follows name module p q) (find : Finder) (x : Name) :
      Follows name module p (Run.final (importModule find x q))
  | reloaded {q : Program} (h : Follows name module p q) (find : Finder) (m : ModuleRef) :
      Follows name module p (Run.final (reload find m q))
  | registered {q : Program} (h : Follows name module p q) {m : ModuleRef}
      (hm : (q.machine.heap.module m).name = name → m = module) :
      Follows name module p (Run.final (register m q))
  | worked {q : Program} (h : Follows name module p q) (machine : Machine) :
      Follows name module p { q with machine }

/-- By induction on what follows: no import and no reload replaces an entry. -/
theorem Follows.get? (h : Follows name module p q) (hx : p.modules.get? name = some module) :
    q.modules.get? name = some module := by
  induction h with
  | start => exact hx
  | imported _ find x ih => exact (importModule_gains find x _).kept ih
  | reloaded _ find m ih =>
    rw [entersNone_reload find m]
    exact ih
  | @registered q _ m hm ih =>
    change (q.modules.insert _ m).get? name = some module
    rw [Bindings.get?_insert]
    split
    · rename_i hname
      rw [hm hname.symm]
    · exact ih
  | worked _ machine ih => exact ih

/-- An import replaces no entry and changes no object that was there. When it fails, it has entered packages
of the module at most. When it succeeds, it gives the module that is entered under the name, and from then on
every import of this name gives the same one and does nothing else, whatever the storage holds by then. -/
theorem importModule_conserves (find : Finder) (name : Name) (p : Program) :
    p.machine.heap.Extends (Run.final (importModule find name p)).machine.heap ∧
      (∀ x module, p.modules.get? x = some module →
        (Run.final (importModule find name p)).modules.get? x = some module) ∧
      (∀ e q, importModule find name p = .error e q →
        ∀ x, q.modules.get? x ≠ p.modules.get? x → ∃ rest : String, name = x ++ "." ++ rest) ∧
      ∀ module q, importModule find name p = .ok module q → q.modules.get? name = some module ∧
        ∀ r, Follows name module q r → ∀ find, importModule find name r = .ok module r := by
  have hg := importModule_gains find name p
  refine ⟨hg.heap, fun _ _ => hg.kept, fun e q hr x hx => ?_, fun module q hr => ?_⟩
  · refine Name.mem_parents.1 ?_
    by_contra hno
    exact hx ((importWithin_error name.parents hr).only hno)
  · have hname := (importWithin_ok name.parents hr).2
    exact ⟨hname, fun r hf find => importWithin_of_entered find (hf.get? hname) name.parents⟩

end Program

namespace Sample

/-- A place with a package, and with a unit of every other name. -/
def packages : Finder := fun x _ =>
  if x = "a" then .ok ⟨none, "r/a", .packageDirectory⟩
  else .ok ⟨some ⟨"r/a/m.em", .ok "let v = 1".toUTF8.toList⟩, "r/a/m.em", .source⟩

def packaged : Program := Run.final (Program.importModule packages "a.b" (.start ["r"] 10 .keep))

/-- The package is gone, and another import from it has failed. -/
def unpackaged : Program :=
  Run.final (Program.importModule (fun x places => .error (.notFound x places)) "a.c" packaged)

end Sample

/-- The module goes on being given when its storage is gone. -/
theorem Program.importModule_conserves_unpackaged :
    Program.importModule Sample.packages "a.b" (.start ["r"] 10 .keep) = .ok ⟨1⟩ Sample.packaged ∧
      Sample.packaged.modules.get? "a.b" = some ⟨1⟩ ∧
      ∀ find, Program.importModule find "a.b" Sample.unpackaged = .ok ⟨1⟩ Sample.unpackaged := by
  have hok : Program.importModule Sample.packages "a.b" (.start ["r"] 10 .keep) = .ok ⟨1⟩ Sample.packaged :=
    Run.eq_ok_final (by decide +kernel)
  obtain ⟨-, -, -, hgiven⟩ := Program.importModule_conserves Sample.packages "a.b" (.start ["r"] 10 .keep)
  obtain ⟨hname, hagain⟩ := hgiven _ _ hok
  exact ⟨hok, hname, hagain Sample.unpackaged (.imported .start _ "a.c")⟩

namespace Program

variable {find : Finder} {name : Name} {p q : Program} {module : ModuleRef} {loaded : ReadUnit} {m₁ : Machine}

/-! ## What a program has entered -/

theorem persists_reload (hp : p.Sound) (hf : p.fallback.IsHost) (find : Finder) {x : Name}
    (hx : p.modules.get? x = some module) :
    p.machine.heap.Persists (Run.final (reload find module p)).machine.heap := by
  obtain ⟨ms, hloaded, hmodules⟩ := hp.loadedFrom
  obtain ⟨ms', hq, -⟩ := hosts_reload hloaded hp.closed hmodules hf find (hloaded x module hx)
  exact (hq.machine.hosts hp.closed hmodules).persists

/-- Each module is entered under its own name, and a module that lies in a package after the package. -/
structure Orderly (p : Program) : Prop where
  keyed : ∀ x module, p.modules.get? x = some module → (p.machine.heap.module module).name = x
  nested : ∀ x module parent, p.modules.get? x = some module → x.split.1 = some parent →
    ∃ package places, p.modules.get? parent = some package ∧
      (p.machine.heap.module package).searchPath = some places

/-- Nothing is entered, and no object is lost. -/
theorem Orderly.later (ho : p.Orderly) (hp : p.HasModules) (hm : q.modules = p.modules)
    (hh : p.machine.heap.Persists q.machine.heap) : q.Orderly := by
  have hfixed : ∀ x module, p.modules.get? x = some module →
      (q.machine.heap.module module).fixed = (p.machine.heap.module module).fixed :=
    fun x module hx => hh.modules.get module (hp x module hx).module_lt
  refine ⟨fun x module hx => ?_, fun x module parent hx hparent => ?_⟩
  · rw [hm] at hx
    exact (congrArg Prod.fst (hfixed x module hx)).trans (ho.keyed x module hx)
  · rw [hm] at hx ⊢
    obtain ⟨package, places, hpackage, hplaces⟩ := ho.nested x module parent hx hparent
    exact ⟨package, places, hpackage, (congrArg (·.2.2) (hfixed parent package hpackage)).trans hplaces⟩

theorem searchPlaces_ok {parent : Name} {places : List Path}
    (h : p.searchPlaces name (some parent) = .ok places) : ∃ package,
      p.modules.get? parent = some package ∧ (p.machine.heap.module package).searchPath = some places := by
  unfold searchPlaces at h
  dsimp only at h
  split at h
  · cases h
  · rename_i package hpackage
    split at h
    · cases h
    · rename_i hplaces
      cases h
      exact ⟨package, hpackage, hplaces⟩

/-- A module is entered in the places of its package. -/
theorem Orderly.entered {places : List Path} (ho : p.Orderly) (hp : p.Sound)
    (hn : p.modules.get? name = none) (hplaces : p.searchPlaces name name.split.1 = .ok places)
    (he : Entered name loaded p module m₁ q) : q.Orderly := by
  have hget : ∀ x, q.modules.get? x = if x = name then some module else p.modules.get? x := by
    intro x
    rw [he.modules, Bindings.get?_insert]
  have hkept : ∀ {x m}, p.modules.get? x = some m →
      q.modules.get? x = some m ∧ (q.machine.heap.module m).fixed = (p.machine.heap.module m).fixed := by
    intro x m hx
    refine ⟨?_, he.persists.modules.get m (hp.modules x m hx).module_lt⟩
    rw [hget, if_neg, hx]
    rintro rfl
    rw [hn] at hx
    cases hx
  refine ⟨fun x m hx => ?_, fun x m parent hx hparent => ?_⟩
  · rw [hget] at hx
    split at hx
    · rename_i hxn
      cases hx
      exact (congrArg Prod.fst he.fixed).trans hxn.symm
    · exact (congrArg Prod.fst (hkept hx).2).trans (ho.keyed x m hx)
  · have hpackage : ∃ package places, p.modules.get? parent = some package ∧
        (p.machine.heap.module package).searchPath = some places := by
      rw [hget] at hx
      split at hx
      · rename_i hxn
        rw [← hxn, hparent] at hplaces
        obtain ⟨package, h⟩ := searchPlaces_ok hplaces
        exact ⟨package, places, h⟩
      · exact ho.nested x m parent hx hparent
    obtain ⟨package, places, hpackage, hplaces⟩ := hpackage
    obtain ⟨hin, hfixed⟩ := hkept hpackage
    exact ⟨package, places, hin, (congrArg (·.2.2) hfixed).trans hplaces⟩

theorem Orderly.loadNew (ho : p.Orderly) (hp : p.Sound) (find : Finder) (hn : p.modules.get? name = none) :
    (Run.final (loadNew find name name.split.1 p)).Orderly := by
  cases hr : Program.loadNew find name name.split.1 p with
  | ok module q =>
    obtain ⟨places, loaded, hplaces, -, m₁, he⟩ := loadNew_ok hr
    exact ho.entered hp hn hplaces he
  | error e q =>
    obtain ⟨hm, hh⟩ := loadNew_error hr
    exact ho.later hp.modules hm hh.footprint.persists

/-- However an import ends, the modules that it has entered are in order. By induction on the packages: when
the innermost is entered, the name itself is still free, for a name is none of its own packages. -/
theorem Orderly.importWithin (find : Finder) (parents : List Name) (hparents : parents = name.parents)
    (ho : p.Orderly) (hp : p.Sound) : (Run.final (importWithin find name parents p)).Orderly := by
  induction parents generalizing name with
  | nil =>
    cases hn : p.modules.get? name with
    | some m =>
      rw [importWithin_of_entered find hn]
      exact ho
    | none =>
      rw [importWithin_nil find hn]
      have hs : name.split.1 = none := by
        rw [Name.parents_eq] at hparents
        split at hparents
        · cases hparents
        · assumption
      rw [← hs]
      exact ho.loadNew hp find hn
  | cons parent parents ih =>
    cases hn : p.modules.get? name with
    | some m =>
      rw [importWithin_of_entered find hn]
      exact ho
    | none =>
      rw [importWithin_cons find hn]
      have hs : name.split.1 = some parent ∧ parents = parent.parents := by
        rw [Name.parents_eq] at hparents
        split at hparents
        · cases hparents
          exact ⟨‹_›, rfl⟩
        · cases hparents
      have ho := ih hs.2
      have hp := (keeps_importWithin find parents parent hp).1.sound
      cases hr : Program.importWithin find parent parents p with
      | error e p' =>
        rw [bind_of_error hr]
        rw [hr] at ho
        exact ho
      | ok m p' =>
        rw [bind_of_ok hr]
        rw [hr] at ho hp
        have hfree : p'.modules.get? name = none := by
          rw [(importWithin_ok parents hr).1.only, hn]
          rw [hparents]
          exact name.not_mem_parents
        have ho := Orderly.loadNew ho hp find hfree
        rw [hs.1] at ho
        exact ho

/-- By induction on the run, one case for each thing that it does. -/
theorem Reachable.orderly (h : Reachable p) : p.Orderly := by
  induction h with
  | start roots limit =>
    exact ⟨(fun x module hx => by cases hx), fun x module parent hx => by cases hx⟩
  | imported h find name ih => exact ih.importWithin find _ rfl h.sound
  | reloaded h find hx ih =>
    exact ih.later h.sound.modules (entersNone_reload find _ _) (persists_reload h.sound h.inHands.2 find hx)
  | @merged p h u x module hx ih =>
    exact ih.later h.sound.modules rfl (merge_persists p.limit u (h.sound.modules x module hx))
  | @called p h f args hf ha ih =>
    exact ih.later h.sound.modules rfl (Run.call_footprint p.limit f args p.machine).persists

/-- In a program whose modules are in order, a reload finds the package that its module lies in. -/
theorem Orderly.searchPlaces (ho : p.Orderly) {x : Name} (hx : p.modules.get? x = some module) :
    ∃ places, p.searchPlaces (p.machine.heap.module module).name
      (p.machine.heap.module module).name.split.1 = .ok places := by
  rw [ho.keyed x module hx]
  cases hs : x.split.1 with
  | none => exact ⟨p.roots, rfl⟩
  | some parent =>
    obtain ⟨package, places, hpackage, hplaces⟩ := ho.nested x module parent hx hs
    refine ⟨places, ?_⟩
    unfold Program.searchPlaces
    simp only [hpackage, hplaces]

theorem delegate_error (hf : p.fallback.AsksNoPackage) {d : Delegation} {e : ModuleError}
    (h : delegate module d p = .error (.failure e) q) : ¬ e.Unplaced := by
  unfold delegate onMachine at h
  dsimp only at h
  split at h
  · cases h
  · rename_i e' m' hm
    cases e' with
    | divergence => cases h
    | failure e' =>
      cases h
      exact hf _ _ _ _ _ _ hm

theorem reload_error (ho : p.Orderly) (hfind : find.AsksNoPackage) (hf : p.fallback.AsksNoPackage)
    {e : ModuleError} {x : Name} (hx : p.modules.get? x = some module)
    (h : reload find module p = .error (.failure e) q) : ¬ e.Unplaced := by
  obtain ⟨places, hplaces⟩ := ho.searchPlaces hx
  unfold reload at h
  rw [get_bind, hplaces] at h
  rcases bind_error h with h | ⟨_, _, h₁, h⟩
  · cases h
  cases h₁
  rcases bind_error h with h | ⟨l, _, h₁, h⟩
  · obtain ⟨⟨e', hload, he⟩, -⟩ := orFail_error h
    cases he
    exact load_error hfind hload
  obtain ⟨-, rfl⟩ := orFail_ok h₁
  cases l with
  | unsupported location kind =>
    rcases bind_error h with h | ⟨_, _, -, h⟩
    · exact delegate_error hf h
    · cases h
  | unit loaded =>
    rcases bind_error h with h | ⟨s, _, -, h⟩
    · unfold onMachine at h
      split at h
      · cases h
      · rename_i e' m' hm
        cases e' with
        | divergence => cases h
        | failure e' =>
          cases h
          exact merge_error hm
    · rcases bind_error h with h | ⟨_, _, -, h⟩
      · cases h
      · cases h

/-- A reload without its summary fails as the reload does. -/
theorem reloadModule_eq_error_iff {e : Halt ModuleError} :
    reloadModule find module p = .error e q ↔ reload find module p = .error e q := by
  change EStateM.bind _ _ p = _ ↔ _
  unfold EStateM.bind
  cases reload find module p with
  | ok a p' => exact iff_of_false nofun nofun
  | error e' p' => constructor <;> (intro h; cases h; rfl)

/-- At every moment of a run, each module is entered under its own name and after its package. So a reload of it
never fails because the module has no package to be found in, whatever has become of the storage: however it is
searched for and whatever the fallback does, as long as these do not fail for such a reason themselves. A search
of files never does. -/
theorem Reachable.registry (h : Reachable p) : p.Orderly ∧
    (∀ fs, (Storage.inFiles fs).AsksNoPackage) ∧
    ∀ find : Finder, find.AsksNoPackage → p.fallback.AsksNoPackage →
      ∀ x module, p.modules.get? x = some module →
        (∀ e q, reload find module p = .error (.failure e) q → ¬ e.Unplaced) ∧
          ∀ e q, reloadModule find module p = .error (.failure e) q → ¬ e.Unplaced := by
  have hreload : ∀ find : Finder, find.AsksNoPackage → p.fallback.AsksNoPackage → ∀ x module,
      p.modules.get? x = some module → ∀ e q, reload find module p = .error (.failure e) q → ¬ e.Unplaced :=
    fun _ hfind hf _ _ hx _ _ hr => reload_error h.orderly hfind hf hx hr
  exact ⟨h.orderly, Storage.inFiles_asksNoPackage, fun find hfind hf x module hx =>
    ⟨hreload find hfind hf x module hx,
      fun e q hr => hreload find hfind hf x module hx e q (reloadModule_eq_error_iff.1 hr)⟩⟩

end Program

theorem Program.Reachable.registry_unpackaged :
    Sample.unpackaged.modules.names = ["a", "a.b"] ∧
      (Sample.unpackaged.machine.heap.module ⟨1⟩).name = "a.b" ∧
      (∃ package places, Sample.unpackaged.modules.get? "a" = some package ∧
        (Sample.unpackaged.machine.heap.module package).searchPath = some places) ∧
      ∀ fs e q, reload (Storage.inFiles fs) ⟨1⟩ Sample.unpackaged = .error (.failure e) q → ¬ e.Unplaced := by
  obtain ⟨ho, hfiles, hreload⟩ := Program.Reachable.registry
    (.imported (.imported (.start ["r"] 10 Fallback.keep_isHost) Sample.packages "a.b")
      (fun x places => .error (.notFound x places)) "a.c" : Program.Reachable Sample.unpackaged)
  have hb : Sample.unpackaged.modules.get? "a.b" = some ⟨1⟩ := by decide +kernel
  have hkeep : Sample.unpackaged.fallback.AsksNoPackage := by
    unfold Sample.unpackaged Sample.packaged
    rw [Program.fallback_importModule, Program.fallback_importModule]
    exact Fallback.keep_asksNoPackage
  exact ⟨by decide +kernel, ho.keyed _ _ hb, ho.nested _ _ "a" hb (by decide +kernel),
    fun fs => (hreload _ (hfiles fs) hkeep _ _ hb).1⟩

end LivePatch
