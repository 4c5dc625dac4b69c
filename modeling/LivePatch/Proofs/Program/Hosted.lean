/-
A running program as the host of its machine. An import makes a module, runs a unit in its namespace and
notes where it has come from; a reload merges a unit into the module and notes the same, or it leaves the
module to a fallback, which has the machine in its hands like any host. So the machine of a program is at every
moment one that a host comes to, with the loaded modules among its own, and what a host keeps is kept by
imports and reloads, however they end.
-/
import LivePatch.Proofs.Module.Reachable
import LivePatch.Proofs.Program.Import

namespace LivePatch

/-- On a machine where nothing is missing, the fallback does what a host can do, however it ends, and gives a
module that the host has. -/
def Fallback.IsHost (f : Fallback) : Prop :=
  ∀ (ms : List ModuleRef) (m : Machine) (module : ModuleRef) (location : Path) (kind : StorageKind),
    m.heap.Closed → (∀ r ∈ ms, m.heap.HasModule r) → module ∈ ms →
      ∃ ms', Machine.Hosting ms m ms' (Run.final (f.reload module location kind m)) ∧
        ∀ r m', f.reload module location kind m = .ok r m' → r ∈ ms'

theorem Fallback.keep_isHost : keep.IsHost := by
  refine fun ms m module location kind _ _ hm => ⟨ms, .start, fun r m' h => ?_⟩
  cases h
  exact hm

/-- A host loses no module. -/
theorem Machine.Hosting.subset {ms₀ ms : List ModuleRef} {m₀ m : Machine} (h : Hosting ms₀ m₀ ms m) :
    ms₀ ⊆ ms := by
  induction h with
  | start => exact List.Subset.refl _
  | made _ _ _ ih => exact List.subset_cons_of_subset _ ih
  | noted | ran | merged | called | got | set | bound | unbound => assumption

namespace Program

/-- The loaded modules are among these. -/
def LoadedFrom (ms : List ModuleRef) (p : Program) : Prop :=
  ∀ x module, p.modules.get? x = some module → module ∈ ms

theorem loadedFrom_entered (p : Program) : LoadedFrom (p.modules.names.filterMap p.modules.get?) p :=
  fun x _ hx => List.mem_filterMap.2 ⟨x, (p.modules.mem_names_iff x).2 (Option.isSome_of_eq_some hx), hx⟩

/-- From the one program with its modules to the other, the machine has been in the hands of a host, whose
modules have the loaded ones among them. -/
structure Hosted (ms : List ModuleRef) (p : Program) (ms' : List ModuleRef) (q : Program) : Prop where
  machine : Machine.Hosting ms p.machine ms' q.machine
  loaded : LoadedFrom ms' q
  fallback : q.fallback = p.fallback

theorem Hosted.refl {ms : List ModuleRef} {p : Program} (hp : LoadedFrom ms p) : Hosted ms p ms p :=
  ⟨.start, hp, rfl⟩

theorem Hosted.trans {ms ms' ms'' : List ModuleRef} {p q r : Program} (a : Hosted ms p ms' q)
    (b : Hosted ms' q ms'' r) : Hosted ms p ms'' r :=
  ⟨a.machine.trans b.machine, b.loaded, b.fallback.trans a.fallback⟩

theorem Hosted.kept {ms ms' : List ModuleRef} {p q : Program} (h : Hosted ms p ms' q) : ms ⊆ ms' :=
  h.machine.subset

/-! ## Parts of a run -/

section Parts

variable {α β : Type} {ms : List ModuleRef} {p : Program}

/-- However the run ends, the machine has been in the hands of a host; and a value that the run ends with has
a property together with the modules. -/
def Hosts (ms : List ModuleRef) (p : Program) (x : InProgram α) (Q : α → List ModuleRef → Prop) : Prop :=
  ∃ ms', Hosted ms p ms' (Run.final (x p)) ∧ ∀ a q, x p = .ok a q → Q a ms'

theorem hosts_pure (hp : LoadedFrom ms p) {Q : α → List ModuleRef → Prop} {a : α} (ha : Q a ms) :
    Hosts ms p (pure a) Q := by
  refine ⟨ms, .refl hp, fun b q h => ?_⟩
  cases h
  exact ha

theorem hosts_fail (hp : LoadedFrom ms p) (e : ModuleError) {Q : α → List ModuleRef → Prop} :
    Hosts ms p (fail e) Q := ⟨ms, .refl hp, fun b q h => by cases h⟩

theorem hosts_bind {x : InProgram α} {f : α → InProgram β} {Q : α → List ModuleRef → Prop}
    {R : β → List ModuleRef → Prop} (hx : Hosts ms p x Q)
    (hf : ∀ a q ms', Hosted ms p ms' q → Q a ms' → Hosts ms' q (f a) R) : Hosts ms p (x >>= f) R := by
  obtain ⟨ms', hp, hq⟩ := hx
  change Hosts ms p (EStateM.bind x f) R
  unfold Hosts EStateM.bind
  cases hr : x p with
  | error e q =>
    rw [hr] at hp
    exact ⟨ms', hp, fun b r h => by cases h⟩
  | ok a q =>
    rw [hr] at hp
    obtain ⟨ms'', hp', hr'⟩ := hf a q ms' hp (hq a q hr)
    exact ⟨ms'', hp.trans hp', hr'⟩

theorem hosts_get_bind {f : Program → InProgram β} {R : β → List ModuleRef → Prop}
    (h : Hosts ms p (f p) R) : Hosts ms p (get >>= f) R := h

theorem hosts_orFail (hp : LoadedFrom ms p) (x : Except ModuleError α) :
    Hosts ms p (orFail x) fun _ _ => True := by
  cases x with
  | ok a => exact hosts_pure hp trivial
  | error e => exact hosts_fail hp e

theorem hosts_onMachine {ε : Type} (hp : LoadedFrom ms p) (reword : ε → ModuleError)
    {x : EStateM (Halt ε) Machine α} {ms' : List ModuleRef}
    (hx : Machine.Hosting ms p.machine ms' (Run.final (x p.machine))) {Q : α → List ModuleRef → Prop}
    (hq : ∀ a m, x p.machine = .ok a m → Q a ms') : Hosts ms p (onMachine reword x) Q := by
  refine ⟨ms', ?_⟩
  unfold onMachine
  cases hr : x p.machine with
  | ok a m =>
    rw [hr] at hx
    refine ⟨⟨hx, fun y module hy => hx.subset (hp y module hy), rfl⟩, fun b q h => ?_⟩
    cases h
    exact hq a m hr
  | error e m =>
    rw [hr] at hx
    exact ⟨⟨hx, fun y module hy => hx.subset (hp y module hy), rfl⟩, fun b q h => by cases h⟩

theorem hosts_onHeap (hp : LoadedFrom ms p) {ms' : List ModuleRef} {f : Heap → α × Heap}
    (hf : Machine.Hosting ms p.machine ms' { p.machine with heap := (f p.machine.heap).2 })
    {Q : α → List ModuleRef → Prop} (hq : Q (f p.machine.heap).1 ms') : Hosts ms p (onHeap f) Q := by
  refine ⟨ms', ⟨hf, fun x module hx => hf.subset (hp x module hx), rfl⟩, fun a q h => ?_⟩
  cases h
  exact hq

end Parts

/-! ## Imports and reloads -/

variable {ms : List ModuleRef} {p : Program}

theorem hosts_noted (hp : LoadedFrom ms p) (module : ModuleRef) (origin : Path) :
    Hosts ms p (onHeap fun h => ((), h.setOrigin module origin)) fun _ _ => True :=
  hosts_onHeap hp (.noted .start module origin) trivial

theorem hosts_register (hp : LoadedFrom ms p) {module : ModuleRef} (hm : module ∈ ms) :
    Hosts ms p (register module) fun _ _ => True := by
  refine ⟨ms, ⟨.start, fun x r hx => ?_, rfl⟩, fun _ _ _ => trivial⟩
  change (p.modules.insert _ module).get? x = some r at hx
  rw [Bindings.get?_insert] at hx
  split at hx
  · cases hx
    exact hm
  · exact hp x r hx

/-- The module is the host's before its unit runs, and stays so however the unit ends. -/
theorem hosts_enter (hp : LoadedFrom ms p) (name : Name) (loaded : ReadUnit) :
    Hosts ms p (enter name loaded) fun module ms => module ∈ ms := by
  refine hosts_bind (Q := fun module ms => module ∈ ms) (hosts_onHeap hp
    (.made .start name (loaded.packageDir.map ([·]))) (List.mem_cons_self ..)) ?_
  intro module q ms₁ hq hm
  refine hosts_get_bind (hosts_bind (Q := fun _ _ => True)
    (hosts_onMachine hq.loaded _ (.ran .start q.limit loaded.unit hm name) fun _ _ _ => trivial) ?_)
  intro _ r ms₂ hr _
  refine hosts_bind (hosts_noted hr.loaded module loaded.location) fun _ t ms₃ ht _ => ?_
  have hm := ht.kept (hr.kept hm)
  exact hosts_bind (hosts_register ht.loaded hm) fun _ w ms₄ hw _ => hosts_pure hw.loaded (hw.kept hm)

theorem hosts_loadNew (hp : LoadedFrom ms p) (find : Finder) (name : Name) (parent : Option Name) :
    Hosts ms p (loadNew find name parent) fun module ms => module ∈ ms := by
  refine hosts_get_bind (hosts_bind (hosts_orFail hp _) fun places q ms₁ hq _ => ?_)
  refine hosts_bind (hosts_orFail hq.loaded _) fun l r ms₂ hr _ => ?_
  cases l with
  | unit loaded => exact hosts_enter hr.loaded name loaded
  | unsupported location kind => exact hosts_fail hr.loaded _

/-- By induction on the packages: each is there before the next is loaded. -/
theorem hosts_importWithin (find : Finder) (parents : List Name) :
    ∀ {ms : List ModuleRef} {p : Program} (name : Name), LoadedFrom ms p →
      Hosts ms p (importWithin find name parents) fun module ms => module ∈ ms := by
  induction parents with
  | nil =>
    intro ms p name hp
    refine hosts_get_bind ?_
    split
    · exact hosts_pure hp (hp _ _ ‹_›)
    · exact hosts_loadNew hp find name none
  | cons parent parents ih =>
    intro ms p name hp
    refine hosts_get_bind ?_
    split
    · exact hosts_pure hp (hp _ _ ‹_›)
    · exact hosts_bind (ih parent hp) fun _ q ms₁ hq _ => hosts_loadNew hq.loaded find name (some parent)

/-- However an import ends, the fallback is the same. -/
theorem fallback_importModule (find : Finder) (name : Name) (p : Program) :
    (Run.final (importModule find name p)).fallback = p.fallback := by
  obtain ⟨_, hq, -⟩ := hosts_importWithin find name.parents name p.loadedFrom_entered
  exact hq.fallback

theorem hosts_delegate (hp : LoadedFrom ms p) (hc : p.machine.heap.Closed)
    (hms : ∀ r ∈ ms, p.machine.heap.HasModule r) (hf : p.fallback.IsHost) {module : ModuleRef} (hm : module ∈ ms)
    (d : Delegation) : Hosts ms p (delegate module d) fun r ms => r ∈ ms := by
  obtain ⟨ms', hx, hr⟩ := hf ms p.machine module d.location d.kind hc hms hm
  -- the machine is not touched by the note that the module was left to the fallback
  obtain ⟨ms'', ⟨hmachine, hloaded, hfallback⟩, hq⟩ :=
    hosts_onMachine (p := { p with delegations := d :: p.delegations }) (Q := fun r ms => r ∈ ms) hp id hx hr
  exact ⟨ms'', ⟨hmachine, hloaded, hfallback⟩, hq⟩

/-- A reload merges a unit into the module, or it leaves the module to the fallback. -/
theorem hosts_reload (hp : LoadedFrom ms p) (hc : p.machine.heap.Closed)
    (hms : ∀ r ∈ ms, p.machine.heap.HasModule r) (hf : p.fallback.IsHost) (find : Finder) {module : ModuleRef}
    (hm : module ∈ ms) : Hosts ms p (reload find module) fun r ms => r.1 ∈ ms := by
  refine hosts_get_bind (hosts_bind (hosts_orFail hp _) fun places q ms₁ hq _ => ?_)
  refine hosts_bind (hosts_orFail hq.loaded _) fun l r ms₂ hr _ => ?_
  have hm := hr.kept (hq.kept hm)
  cases l with
  | unsupported location kind =>
    have hr' := hq.trans hr
    have hh := hr'.machine.hosts hc hms
    exact hosts_bind (hosts_delegate hr.loaded hh.closed hh.modules (hr'.fallback ▸ hf) hm _)
      fun other t ms₃ ht hother => hosts_pure ht.loaded hother
  | unit loaded =>
    refine hosts_bind (Q := fun _ _ => True)
      (hosts_onMachine hr.loaded _ (.merged .start _ loaded.unit hm) fun _ _ _ => trivial) fun s t ms₃ ht _ => ?_
    refine hosts_bind (hosts_noted ht.loaded module loaded.location) fun _ w ms₄ hw _ => ?_
    exact hosts_pure hw.loaded (hw.kept (ht.kept hm))

/-! ## A whole run -/

/-- The programs that a run comes to. It imports modules and reloads those that are loaded, and it merges
units into them and calls values that are there. -/
inductive Reachable : Program → Prop
  | start (roots : List Path) (limit : Nat) {fallback : Fallback} (hf : fallback.IsHost) :
      Reachable (.start roots limit fallback)
  | imported {p : Program} (h : Reachable p) (find : Finder) (name : Name) :
      Reachable (Run.final (importModule find name p))
  | reloaded {p : Program} (h : Reachable p) (find : Finder) {x : Name} {module : ModuleRef}
      (hx : p.modules.get? x = some module) : Reachable (Run.final (reload find module p))
  | merged {p : Program} (h : Reachable p) (u : CodeUnit) {x : Name} {module : ModuleRef}
      (hx : p.modules.get? x = some module) :
      Reachable { p with machine := Run.final (merge p.limit u module p.machine) }
  | called {p : Program} (h : Reachable p) {f : Value} {args : List Value}
      (hf : p.machine.heap.There f) (ha : ∀ v ∈ args, p.machine.heap.There v) :
      Reachable { p with machine := Run.final (Run.call p.limit f args p.machine) }

/-- At every moment of a run, the machine of the program is one that a host comes to, and the fallback is the one
that the program has started with. -/
theorem Reachable.inHands (h : Reachable p) :
    (∃ ms, Machine.Reachable ms p.machine ∧ LoadedFrom ms p) ∧ p.fallback.IsHost := by
  induction h with
  | start roots limit hf => exact ⟨⟨[], .start, fun x module hx => by cases hx⟩, hf⟩
  | imported h find name ih =>
    obtain ⟨⟨ms, hr, hp⟩, hf⟩ := ih
    obtain ⟨ms', hq, -⟩ := hosts_importWithin find name.parents name hp
    exact ⟨⟨ms', hr.trans hq.machine, hq.loaded⟩, hq.fallback ▸ hf⟩
  | reloaded h find hx ih =>
    obtain ⟨⟨ms, hr, hp⟩, hf⟩ := ih
    obtain ⟨hc, hms, -⟩ := hr.hosts
    obtain ⟨ms', hq, -⟩ := hosts_reload hp hc hms hf find (hp _ _ hx)
    exact ⟨⟨ms', hr.trans hq.machine, hq.loaded⟩, hq.fallback ▸ hf⟩
  | merged h u hx ih =>
    obtain ⟨⟨ms, hr, hp⟩, hf⟩ := ih
    exact ⟨⟨ms, hr.merged _ u (hp _ _ hx), hp⟩, hf⟩
  | called h hf ha ih =>
    obtain ⟨⟨ms, hr, hp⟩, hfallback⟩ := ih
    exact ⟨⟨ms, hr.called _ hf ha, hp⟩, hfallback⟩

theorem Reachable.hosted (h : Reachable p) : ∃ ms, Machine.Reachable ms p.machine ∧ LoadedFrom ms p := h.inHands.1

end Program

end LivePatch
