/-
Merging the same unit twice. The second merge runs the unit on a heap that the first one has changed, but
its run is the same as the first, up to the objects that it makes; and of each name that the unit binds, the
first merge has left either the unit's value or an older object of the same kind. So the second merge finds
nothing to add and nothing to remove, and every function, method and class stays.
-/
import LivePatch.Proofs.Machine.History
import LivePatch.Proofs.Module.Depth
import LivePatch.Proofs.Module.Unhooked
import LivePatch.Proofs.Program.Reload

namespace LivePatch

theorem Value.Akin.trans {v w z : Value} (a : v.Akin w) (b : w.Akin z) : v.Akin z := by
  rcases a with rfl | ⟨hk, hs⟩
  · exact b
  · rcases b with rfl | ⟨hk', -⟩
    · exact .inr ⟨hk, hs⟩
    · exact .inr ⟨hk.trans hk', hs⟩

theorem Value.Patchable.not_isScalar {v : Value} (hp : v.Patchable) : ¬ v.IsScalar := by
  cases v with
  | function | method | type => exact id
  | object | none | bool | int | str | builtin => exact absurd hp id

namespace Merge

variable {limit : Nat} {u : CodeUnit} {module : ModuleRef} {m m₁ m' : Machine} {s : Summary}

/-! ## After the first merge -/

/-- A merge without hooks leaves every name that the unit binds with a value akin to the unit's. -/
theorem Executed.akin_after (he : Executed limit u module m m₁) (hm : m.heap.HasModule module)
    (h : merge limit u module m = .ok s m')
    (hh : ∀ hook old k, ¬ CallsHook limit u module m hook old k) {x : Name} {v w : Value}
    (hv : (m'.heap.bindings module).get? x = some v)
    (hw : (m₁.heap.scope m.heap.newScope.1).get? x = some w) : v.Akin w := by
  rcases he.bound_after hm h hh hv with ⟨-, hold⟩ | hnew
  · obtain ⟨hk, hp⟩ := hold w hw
    exact .inr ⟨hk, hp.not_isScalar⟩
  · exact .inl (Option.some.inj (hnew.symm.trans hw))

/-! ## The second run -/

/-- After a merge of the unit, its next run in a new namespace is the twin of the one before. -/
theorem Executed.again (he : Executed limit u module m m₁) (hm : m.heap.HasModule module)
    (h : merge limit u module m = .ok s m') :
    ∃ m₂, Executed limit u module m' m₂ ∧ (Twins.again m.heap m'.heap u).Heaps m₁.heap m₂.heap := by
  have hpersists := merge_persists limit u hm
  rw [h] at hpersists
  have hname : (m'.heap.module module).name = (m.heap.module module).name :=
    congrArg Prod.fst (hpersists.modules.get module hm.module_lt)
  rcases u.run_again limit (m.heap.module module).name m.heap m'.heap m.depth with
    ⟨k, m₂, hk, hm₂, hh⟩ | ⟨e, k, k', hk, -⟩ | ⟨k, k', hk, -⟩
  · cases hk.symm.trans he
    rw [← same_depth h, ← hname] at hm₂
    exact ⟨m₂, hm₂, hh⟩
  · cases hk.symm.trans he
  · cases hk.symm.trans he

/-- What the first merge has left covers what the second run of the unit binds. -/
theorem Executed.covers_again (he : Executed limit u module m m₁) (hm : m.heap.HasModule module)
    (hself : selfName ∈ (m.heap.bindings module).names) (h : merge limit u module m = .ok s m')
    (hh : ∀ hook old k, ¬ CallsHook limit u module m hook old k) {m₂ : Machine}
    (htwins : (Twins.again m.heap m'.heap u).Heaps m₁.heap m₂.heap) :
    Covers (m'.heap.bindings module) (m₂.heap.scope m'.heap.newScope.1) where
  names x := by
    have hnames : (m₁.heap.scope m.heap.newScope.1).names = (m₂.heap.scope m'.heap.newScope.1).names :=
      (htwins.matches rfl).bindings.names
    rw [(he.merged hm h).mem_names hself x, hnames]
  akin hb hw' := by
    obtain ⟨w, hw, hww'⟩ := htwins.scope.bound hw'
    exact (he.akin_after hm h hh hb hw).trans hww'.akin

end Merge

/-- A unit without hooks that has been merged can be merged again at once. The first merge leaves the module
with exactly the names that the unit binds and its own, and the second one changes no name: none is added
or removed, all keep their order, and all values but instances are kept. -/
theorem merge_repeated {ms : List ModuleRef} {m m₁ m' : Machine} {module : ModuleRef} {limit : Nat}
    {u : CodeUnit} {s : Summary} (hr : Machine.Reachable ms m) (hmod : module ∈ ms)
    (h : merge limit u module m = .ok s m') (he : Merge.Executed limit u module m m₁)
    (hno : ∀ x w, (m₁.heap.scope m.heap.newScope.1).get? x = some w → m₁.heap.attr? w updateHook = none) :
    (∀ x, x ∈ (m'.heap.bindings module).names ↔
        x ∈ (m₁.heap.scope m.heap.newScope.1).names ∨ x = selfName) ∧
      ∃ s' m'' m₂, merge limit u module m' = .ok s' m'' ∧ Merge.Executed limit u module m' m₂ ∧
        s'.Renewed (m'.heap.bindings module) (m''.heap.bindings module) ∧
        ∀ x, x ∈ (m''.heap.bindings module).names ↔
          x ∈ (m₂.heap.scope m'.heap.newScope.1).names ∨ x = selfName := by
  obtain ⟨hc, hmods, hnamed⟩ := hr.hosts
  have hm := hmods module hmod
  have hself := hnamed module hmod
  have hcalls := he.calls_no_hook hm hc fun x w hw => Update.hook?_of_attr? (hno x w hw)
  -- the machine after the first merge is one that the host comes to as well
  have hr' : Machine.Reachable ms m' := by
    have hr' := hr.merged limit u hmod
    rw [h] at hr'
    exact hr'
  obtain ⟨hc', hmods', hnamed'⟩ := hr'.hosts
  have hm' := hmods' module hmod
  obtain ⟨m₂, he₂, htwins⟩ := he.again hm h
  have hno₂ : ∀ x w, (m₂.heap.scope m'.heap.newScope.1).get? x = some w →
      Update.hook? m₂.heap w = none := by
    intro x w' hw'
    obtain ⟨w, hw, hww'⟩ := htwins.scope.bound hw'
    exact Update.hook?_of_attr? (htwins.attr?_eq_none hww' (hno x w hw))
  have hcalls₂ := he₂.calls_no_hook hm' hc' hno₂
  obtain ⟨s', m'', h₂⟩ := he₂.succeeds hcalls₂
  have hcovers := he.covers_again hm hself h hcalls htwins
  have hmerged₂ := he₂.merged hm' h₂
  exact ⟨(he.merged hm h).mem_names hself, s', m'', m₂, h₂, he₂,
    he₂.renewed hm' hcalls₂ hcovers hmerged₂, hmerged₂.mem_names (hnamed' module hmod)⟩

namespace Sample

/-- A unit that binds a function, a class, an instance of the class and a method of the instance. -/
def kinds : CodeUnit := ⟨"m", [constant "f" 2, .classDef "C" [] [constant "get" 1] none .dummy,
  .bind "c" (.call (.ident "C" .dummy) [] .dummy) .dummy,
  .bind "g" (.attr (.ident "c" .dummy) "get" .dummy) .dummy]⟩

end Sample

theorem merge_repeated_kinds :
    merge 10 Sample.kinds Sample.module Sample.shaped.machine =
        .ok ⟨["g"], [], ["f", "C"], ["c"]⟩ (Sample.mergedInto Sample.kinds Sample.shaped.machine) ∧
      ∃ s m, merge 10 Sample.kinds Sample.module (Sample.mergedInto Sample.kinds Sample.shaped.machine) =
          .ok s m ∧
        s.Renewed ((Sample.mergedInto Sample.kinds Sample.shaped.machine).heap.bindings Sample.module)
          (m.heap.bindings Sample.module) := by
  obtain ⟨ms, hr, hp⟩ := (Program.Reachable.imported (.start [] 10 Fallback.keep_isHost) Sample.shapes "m").hosted
  have hmod : Sample.module ∈ ms := hp "m" _ (by decide +kernel)
  have h : merge 10 Sample.kinds Sample.module Sample.shaped.machine =
      .ok ⟨["g"], [], ["f", "C"], ["c"]⟩ _ := Sample.mergedInto_ok (by decide +kernel)
  have he : Merge.Executed 10 Sample.kinds Sample.module Sample.shaped.machine _ :=
    Sample.ranOn_executed (by decide +kernel)
  have hno : ∀ w ∈ ((Sample.ranOn Sample.kinds Sample.shaped.machine).heap.scope
      Sample.shaped.machine.heap.newScope.1).values,
      (Sample.ranOn Sample.kinds Sample.shaped.machine).heap.attr? w updateHook = none := by decide +kernel
  obtain ⟨-, s, m, -, hm, -, hs, -⟩ := merge_repeated hr hmod h he fun x w hw =>
    hno w (Bindings.mem_values_of_get? hw)
  exact ⟨h, s, m, hm, hs⟩

end LivePatch
