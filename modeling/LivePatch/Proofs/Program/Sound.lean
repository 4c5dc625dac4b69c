/-
Sound programs. A module that a program has loaded is on its heap, with a namespace, from the moment it
is made on, and nothing on the heap refers to what is not there: imports, reloads, merges and calls keep
this, however they end. Theorems about a merge may therefore assume that the module is there and that
the heap is closed.
-/
import LivePatch.Proofs.Program.Hosted

namespace LivePatch

namespace Program

/-- Every loaded module is on the heap. -/
def HasModules (p : Program) : Prop :=
  ∀ x module, p.modules.get? x = some module → p.machine.heap.HasModule module

/-- Every loaded module is on the heap, and nothing there refers to what is not. -/
structure Sound (p : Program) : Prop where
  modules : p.HasModules
  closed : p.machine.heap.Closed

/-- A program at a later moment: no object is lost, and the program is sound. -/
structure Later (p q : Program) : Prop where
  persists : p.machine.heap.Persists q.machine.heap
  sound : q.Sound

variable {p : Program}

/-- The program is a later one however the run ends, and a value that it ends with has a property. -/
def Keeps {α : Type} (p : Program) (x : InProgram α) (Q : α → Program → Prop) : Prop :=
  Later p (Run.final (x p)) ∧ ∀ a q, x p = .ok a q → Q a q

/-- The loaded modules of a sound program are all there, so it can be in the hands of a host that has these. -/
theorem Sound.loadedFrom (hp : p.Sound) :
    ∃ ms, LoadedFrom ms p ∧ ∀ module ∈ ms, p.machine.heap.HasModule module := by
  refine ⟨_, p.loadedFrom_entered, fun module hm => ?_⟩
  obtain ⟨x, -, hx⟩ := List.mem_filterMap.1 hm
  exact hp.modules x module hx

/-- However an import ends, the program is sound, and the module that it ends with is there. -/
theorem keeps_importWithin (find : Finder) (parents : List Name) {p : Program} (name : Name) (hp : p.Sound) :
    Keeps p (importWithin find name parents) fun module q => q.machine.heap.HasModule module := by
  obtain ⟨ms, hloaded, hmodules⟩ := hp.loadedFrom
  obtain ⟨ms', hq, hresult⟩ := hosts_importWithin find parents name hloaded
  have hh := hq.machine.hosts hp.closed hmodules
  refine ⟨⟨hh.persists, fun x module hx => hh.modules module (hq.loaded x module hx), hh.closed⟩, ?_⟩
  intro module q hr
  have hm := hh.modules module (hresult module q hr)
  rw [hr] at hm
  exact hm

theorem keeps_importModule (hp : p.Sound) (find : Finder) (name : Name) :
    Keeps p (importModule find name) fun module q => q.machine.heap.HasModule module :=
  keeps_importWithin find name.parents name hp

/-- At every moment of a run, the program is sound. -/
theorem Reachable.sound (h : Reachable p) : p.Sound := by
  obtain ⟨ms, hr, hp⟩ := h.hosted
  obtain ⟨hc, hmodules, -⟩ := hr.hosts
  exact ⟨fun x module hx => hmodules module (hp x module hx), hc⟩

end Program

end LivePatch
