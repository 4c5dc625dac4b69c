/-
What a host has its machine do. Running a unit, merging one and calling a value are the deeds of a host that
run code; each opens with the running of a tree or with a call, and a merge may go on to call hooks. So all
that happens in a deed happens in one of these. On the way a merge also comes to its stages, between the
updates of two names, and no code runs there.
-/
import LivePatch.Proofs.Machine.Activity
import LivePatch.Proofs.Module.Reachable

namespace LivePatch

inductive Deed where
  | run (u : CodeUnit) (module : ModuleRef) (name : Name)
  | merge (u : CodeUnit) (module : ModuleRef)
  | call (f : Value) (args : List Value)

namespace Deed

/-- The host has got what it does the deed with. -/
def Allowed (ms : List ModuleRef) (m : Machine) : Deed → Prop
  | run _ module _ | merge _ module => module ∈ ms
  | call f args => m.heap.There f ∧ ∀ v ∈ args, m.heap.There v

/-- The unit that the deed brings to the machine. -/
def unit? : Deed → Option CodeUnit
  | run u _ _ | merge u _ => some u
  | call _ _ => none

/-- The machine that a deed leaves, however it ends. -/
def final (limit : Nat) (m : Machine) : Deed → Machine
  | run u module name => Run.final (u.run limit (m.heap.module module).scope name m)
  | merge u module => Run.final (LivePatch.merge limit u module m)
  | call f args => Run.final (Run.call limit f args m)

/-- The runs of code that a deed consists of: of a unit, of a call, or of the hooks of a merge. -/
inductive Opens (limit : Nat) (m : Machine) : Deed → Moment → Prop
  | ran {u : CodeUnit} {module : ModuleRef} {name : Name} :
      Opens limit m (run u module name) ⟨.runAll ⟨(m.heap.module module).scope, name, .module⟩ u.body, m⟩
  | unit {u : CodeUnit} {module : ModuleRef} :
      Opens limit m (merge u module) ⟨.runAll ⟨m.heap.newScope.1, (m.heap.module module).name, .module⟩ u.body,
        { m with heap := m.heap.newScope.2 }⟩
  | hook {u : CodeUnit} {module : ModuleRef} {hook old : Value} {k : Machine}
      (h : Merge.CallsHook limit u module m hook old k) :
      Opens limit m (merge u module) ⟨Run.callActivity k hook [old], k⟩
  | called {f : Value} {args : List Value} : Opens limit m (call f args) ⟨Run.callActivity m f args, m⟩

/-- What begins in the course of a deed. -/
def Happens (limit : Nat) (m : Machine) (d : Deed) (p : Moment) : Prop :=
  ∃ root, d.Opens limit m root ∧ Activity.Happens limit root p

/-- The machine in the course of a deed: whenever something begins or has ended, at every stage of a merge,
and at the end. -/
inductive Passes (limit : Nat) (m : Machine) (d : Deed) : Machine → Prop
  | begins {p : Moment} (h : d.Happens limit m p) : Passes limit m d p.machine
  | ends {p : Moment} (h : d.Happens limit m p) : Passes limit m d (p.activity.final limit p.machine)
  | stage {u : CodeUnit} {module : ModuleRef} {m₁ : Machine} {done todo : List Name} {a : Merge.Stage}
      (hd : d = merge u module) (he : Merge.Executed limit u module m m₁)
      (hs : Merge.sharedNames module m m₁ = done ++ todo) (hr : Merge.Reaches limit module m m₁ done a) :
      Passes limit m d a.machine
  | done : Passes limit m d (d.final limit m)

end Deed

/-- What a host does that runs code is one of its ways to go on. -/
theorem Machine.Hosting.deed {ms₀ ms : List ModuleRef} {m₀ m : Machine} (h : Hosting ms₀ m₀ ms m) (limit : Nat)
    {d : Deed} (hd : d.Allowed ms m) : Hosting ms₀ m₀ ms (d.final limit m) := by
  cases d with
  | run u module name => exact h.ran limit u hd name
  | merge u module => exact h.merged limit u hd
  | call f args => exact h.called limit hd.1 hd.2

end LivePatch
