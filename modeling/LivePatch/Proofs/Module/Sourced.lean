/-
Programs that come from source texts. What a machine runs when every unit is read from a source text is
code that can be written down, also on functions that a merge has patched, and on those that it has put
back. So none of its runs ever assigns to anything but a name or an attribute.
-/
import LivePatch.Proofs.Machine.Unreached
import LivePatch.Proofs.Module.Reachable
import LivePatch.Proofs.Syntax.WellFormed

namespace LivePatch

open Run (Alike)

/-! ## Updates -/

/-- All code that a journal would put back can be written down. -/
def Journal.CodeWellFormed (j : Journal) : Prop :=
  ∀ f state, Journal.Record.function f state ∈ j.records → Stmt.allWellFormed state.code.body = true

namespace Journal.CodeWellFormed

variable {j : Journal} {h : Heap}

theorem start (h : Heap) (scope : ScopeRef) : (Journal.start h scope).CodeWellFormed :=
  fun _ _ hr => nomatch hr

theorem recordFunction (hj : j.CodeWellFormed) (hh : h.CodeWellFormed) (f : FunctionRef) :
    (j.recordFunction h f).CodeWellFormed := by
  unfold Journal.recordFunction
  split
  · exact hj
  · intro g state hr
    rcases List.mem_cons.1 hr with hr | hr
    · cases hr
      exact hh f
    · exact hj g state hr

theorem recordClass (hj : j.CodeWellFormed) (h : Heap) (c : ClassRef) :
    (j.recordClass h c).CodeWellFormed := by
  unfold Journal.recordClass
  split
  · exact hj
  · intro g state hr
    rcases List.mem_cons.1 hr with hr | hr
    · cases hr
    · exact hj g state hr

/-- Going back brings back code that can be written down. -/
theorem rollback (hj : j.CodeWellFormed) (hh : h.CodeWellFormed) : (j.rollback h).CodeWellFormed := by
  have hback : ∀ (rs : List Journal.Record) {k : Heap}, k.CodeWellFormed →
      (∀ f state, Journal.Record.function f state ∈ rs → Stmt.allWellFormed state.code.body = true) →
      (rs.foldl Journal.Record.restore k).CodeWellFormed := by
    intro rs
    induction rs with
    | nil => exact fun hk _ => hk
    | cons r rs ih =>
      intro k hk hrs
      refine ih ?_ fun f state hr => hrs f state (List.mem_cons_of_mem _ hr)
      cases r with
      | function f state => exact hk.modifyFunction f fun _ _ => hrs f state (List.mem_cons_self ..)
      | type c attrs => exact hk.of_sameCode (.of_functions rfl)
  exact (hback j.records hh hj).of_sameCode (.of_functions rfl)

end Journal.CodeWellFormed

/-- All code on the heap and in the journal can be written down. -/
structure Journaled.CodeWellFormed (s : Journaled) : Prop where
  heap : s.heap.CodeWellFormed
  journal : s.journal.CodeWellFormed

namespace Journaled.CodeWellFormed

variable {s : Journaled}

theorem updateFunction (hs : s.CodeWellFormed) (f g : FunctionRef) : (s.updateFunction f g).CodeWellFormed := by
  rcases s.updateFunction_cases f g with e | e
  · rw [e]
    exact hs
  · rw [e]
    exact ⟨hs.heap.modifyFunction f fun _ _ => hs.heap g, hs.journal.recordFunction hs.heap f⟩

theorem updateClass (hs : s.CodeWellFormed) (c d : ClassRef) : (s.updateClass c d).CodeWellFormed := by
  let L : ClassLaw :=
    { inv := fun t => t.CodeWellFormed
      allowed := fun _ => True
      attr := fun _ _ _ => trivial
      record := fun ht _ => ⟨ht.heap, ht.journal.recordClass _ _⟩
      change := fun ht _ _ => ⟨ht.heap.of_sameCode (.of_functions rfl), ht.journal⟩ }
  exact L.updateClass_keeps hs trivial trivial

theorem inPlace (hs : s.CodeWellFormed) (old new : Value) : (Update.inPlace old new s).2.CodeWellFormed := by
  rcases Update.inPlace_cases old new s with ⟨c, d, -, -, e⟩ | ⟨f, g, -, -, e⟩ | e
  · rw [e]
    exact hs.updateClass c d
  · rw [e]
    exact hs.updateFunction f g
  · rw [e]
    exact hs

end Journaled.CodeWellFormed

section

variable {call call' : Caller} (hc : ∀ f args, Alike (call f args) (call' f args))

include hc

/-- Only a hook of the new value is called. -/
theorem Update.perform_alike (old new : Value) {j : Journal} (hj : j.CodeWellFormed) :
    Alike (perform call old new j) (perform call' old new j) := by
  unfold perform
  split
  · exact (Run.quiet_pure _).alike
  split
  · exact (Run.quiet_pure _).alike
  refine (Run.quiet_read _).alike.bind fun found => ?_
  cases found with
  | some a =>
    refine (Run.quiet_make fun h => h.sameCode_obtain a).alike.bind fun hook => ?_
    exact (hc hook [old]).bind fun v => (Run.quiet_pure _).alike
  | none => exact fun m hm => ⟨rfl, (Journaled.CodeWellFormed.inPlace ⟨hm, hj⟩ old new).heap⟩

omit hc in
theorem Update.Performed.journal_codeWellFormed {old new : Value} {j j' : Journal} {m m' : Machine} {u : Update}
    (hp : Performed call old new j m u j' m') (hm : m.heap.CodeWellFormed) (hj : j.CodeWellFormed) :
    j'.CodeWellFormed := by
  cases hp with
  | unchanged | replaced | asked => exact hj
  | inPlace => exact (Journaled.CodeWellFormed.inPlace ⟨hm, hj⟩ old new).journal

namespace Merge

/-- By induction on the names that are left to update. -/
theorem updateNames_alike (scratch live : ScopeRef) : ∀ (xs : List Name) (s : Summary) (j : Journal) (m : Machine),
    m.heap.CodeWellFormed → j.CodeWellFormed →
      updateNames call' scratch live xs s j m = updateNames call scratch live xs s j m ∧
        (updateNames call scratch live xs s j m).machine.heap.CodeWellFormed ∧
        (updateNames call scratch live xs s j m).journal.CodeWellFormed
  | [], _, _, _, hm, hj => ⟨rfl, hm, hj⟩
  | x :: xs, s, j, m, hm, hj => by
    unfold updateNames
    split
    · rename_i old new _ _
      obtain ⟨he, hfinal⟩ := Update.perform_alike hc old new hj m hm
      rw [he]
      rcases Update.perform_cases call old new j m with ⟨u, j', m', hr, hp⟩ | ⟨_, _, e, m', _, _, hr⟩
      · rw [hr] at hfinal ⊢
        exact updateNames_alike scratch live xs _ j' _ (hfinal.of_sameCode (.of_functions rfl))
          (hp.journal_codeWellFormed hm hj)
      · rw [hr] at hfinal ⊢
        exact ⟨rfl, hfinal, hj⟩
    · exact updateNames_alike scratch live xs s j m hm hj

omit hc in
theorem functions_addNames (scratch live : ScopeRef) (xs : List Name) (h : Heap) :
    (addNames scratch live xs h).functions = h.functions := by
  induction xs generalizing h with
  | nil => rfl
  | cons x xs ih =>
    refine (ih _).trans ?_
    dsimp only
    split <;> rfl

theorem apply_alike (scratch live : ScopeRef) (m : Machine) (hm : m.heap.CodeWellFormed) :
    apply call' scratch live m = apply call scratch live m ∧
      (Run.final (apply call scratch live m)).heap.CodeWellFormed := by
  unfold apply
  dsimp only
  generalize NameDiff.between (m.heap.scope live).names (m.heap.scope scratch).names [selfName] = diff
  -- names come and go before the first update, which touches no code
  have hopening : (removeNames live diff.removed (addNames scratch live diff.added m.heap)).CodeWellFormed := by
    refine hm.of_sameCode (.of_functions ?_)
    rw [removeNames_eq]
    exact functions_addNames scratch live diff.added m.heap
  obtain ⟨he, hheap, hjournal⟩ := updateNames_alike hc scratch live diff.shared
    { Summary.none with added := diff.added, removed := diff.removed } (.start m.heap live)
    { m with heap := removeNames live diff.removed (addNames scratch live diff.added m.heap) } hopening
    (.start m.heap live)
  rw [he]
  refine ⟨rfl, ?_⟩
  generalize updateNames call scratch live diff.shared _ _ _ = shared at hheap hjournal
  obtain ⟨result, j, m'⟩ := shared
  cases result with
  | ok s => exact hheap
  | error e =>
    cases e with
    | failure e =>
      -- the functions go back to what the journal has noted of them
      exact hjournal.rollback hheap
    | divergence => exact hheap

end Merge

end

/-- Merges a unit, where an assignment to an expression that is no target does what `other` says. -/
def mergeElse (other : OtherTarget) (limit : Nat) (u : CodeUnit) (module : ModuleRef) : Merging Summary := fun m =>
  let o := m.heap.module module
  let (scratch, heap) := m.heap.newScope
  match CodeUnit.runElse other limit u scratch o.name { m with heap } with
  | .ok () m => Merge.apply (Run.callElse other limit) scratch o.scope m
  | .error e m => .error (e.map (.execution o.name)) m

theorem mergeElse_pure (limit : Nat) (u : CodeUnit) (module : ModuleRef) :
    mergeElse (fun frame _ _ => pure frame) limit u module = merge limit u module := by
  funext m
  unfold mergeElse
  simp only [CodeUnit.runElse_pure, Run.callElse_pure]
  rfl

theorem merge_alike (other : OtherTarget) {u : CodeUnit} (hu : u.wellFormed = true) (limit : Nat)
    (module : ModuleRef) {m : Machine} (hm : m.heap.CodeWellFormed) :
    mergeElse other limit u module m = merge limit u module m ∧
      (Run.final (merge limit u module m)).heap.CodeWellFormed := by
  unfold mergeElse merge
  dsimp only
  obtain ⟨he, hfinal⟩ := CodeUnit.run_alike other hu limit m.heap.newScope.1
    (m.heap.module module).name { m with heap := m.heap.newScope.2 } (hm.of_sameCode (.of_functions rfl))
  rw [he]
  cases hr : u.run limit m.heap.newScope.1 (m.heap.module module).name
      { m with heap := m.heap.newScope.2 } with
  | ok _ m₁ =>
    rw [hr] at hfinal
    exact Merge.apply_alike (Run.call_alike other limit) _ _ m₁ hfinal
  | error e m₁ =>
    rw [hr] at hfinal
    exact ⟨rfl, hfinal⟩

/-! ## Machines -/

/-- The modules and the machine that a host comes to from nothing when every unit that it runs or merges is
read from a source text. -/
inductive Machine.Sourced : List ModuleRef → Machine → Prop
  | start : Sourced [] ⟨.empty, 0⟩
  | made {ms : List ModuleRef} {m : Machine} (h : Sourced ms m) (name : Name) (places : Option (List Path)) :
      Sourced ((m.heap.newModule name places).1 :: ms) { m with heap := (m.heap.newModule name places).2 }
  | noted {ms : List ModuleRef} {m : Machine} (h : Sourced ms m) (module : ModuleRef) (origin : Path) :
      Sourced ms { m with heap := m.heap.setOrigin module origin }
  | ran {ms : List ModuleRef} {m : Machine} (h : Sourced ms m) (limit : Nat) {source origin : String}
      {u : CodeUnit} (hu : CodeUnit.parse source origin = .ok u) {module : ModuleRef} (hm : module ∈ ms)
      (name : Name) : Sourced ms (Run.final (u.run limit (m.heap.module module).scope name m))
  | merged {ms : List ModuleRef} {m : Machine} (h : Sourced ms m) (limit : Nat) {source origin : String}
      {u : CodeUnit} (hu : CodeUnit.parse source origin = .ok u) {module : ModuleRef} (hm : module ∈ ms) :
      Sourced ms (Run.final (merge limit u module m))
  | called {ms : List ModuleRef} {m : Machine} (h : Sourced ms m) (limit : Nat) {f : Value} {args : List Value}
      (hf : m.heap.There f) (ha : ∀ v ∈ args, m.heap.There v) :
      Sourced ms (Run.final (Run.call limit f args m))
  | got {ms : List ModuleRef} {m : Machine} (h : Sourced ms m) {v : Value} (hv : m.heap.There v) (x : Name) :
      Sourced ms (Run.final (Run.getAttr v x m))
  | set {ms : List ModuleRef} {m : Machine} (h : Sourced ms m) {target v : Value} (ht : m.heap.There target)
      (hv : m.heap.There v) (x : Name) : Sourced ms (Run.final (Run.setAttr target x v m))
  | bound {ms : List ModuleRef} {m : Machine} (h : Sourced ms m) {module : ModuleRef} (hm : module ∈ ms)
      (x : Name) {v : Value} (hv : m.heap.There v) :
      Sourced ms { m with heap := m.heap.modifyScope (m.heap.module module).scope (·.insert x v) }
  | unbound {ms : List ModuleRef} {m : Machine} (h : Sourced ms m) {module : ModuleRef} (hm : module ∈ ms)
      {x : Name} (hx : x ≠ selfName) :
      Sourced ms { m with heap := m.heap.modifyScope (m.heap.module module).scope (·.erase x) }

namespace Machine.Sourced

variable {ms : List ModuleRef} {m : Machine}

theorem reachable (h : Sourced ms m) : Reachable ms m := by
  induction h with
  | start => exact .start
  | made _ name places ih => exact ih.made name places
  | noted _ module origin ih => exact ih.noted module origin
  | ran _ limit _ hm name ih => exact ih.ran limit _ hm name
  | merged _ limit _ hm ih => exact ih.merged limit _ hm
  | called _ limit hf ha ih => exact ih.called limit hf ha
  | got _ hv x ih => exact ih.got hv x
  | set _ ht hv x ih => exact ih.set ht hv x
  | bound _ hm x hv ih => exact ih.bound hm x hv
  | unbound _ hm hx ih => exact ih.unbound hm hx

/-- By induction on what the host does, one case for each operation. -/
theorem codeWellFormed (h : Sourced ms m) : m.heap.CodeWellFormed := by
  induction h with
  | start => exact .empty
  | made | noted | bound | unbound => exact Heap.CodeWellFormed.of_sameCode ‹_› (.of_functions rfl)
  | @ran ms m _ limit _ _ u hu module _ name ih =>
    exact (CodeUnit.run_alike (fun frame _ _ => pure frame) (CodeUnit.wellFormed_of_parse hu) limit _ name m ih).2
  | merged _ limit hu _ ih =>
    exact (merge_alike (fun frame _ _ => pure frame) (CodeUnit.wellFormed_of_parse hu) limit _ ih).2
  | called _ limit _ _ ih =>
    exact (Run.call_alike (fun frame _ _ => pure frame) limit _ _ _ ih).2
  | got _ _ x ih => exact ih.of_sameCode (Run.quiet_getAttr _ x _)
  | set _ _ _ x ih => exact ih.of_sameCode (Run.quiet_setAttr _ x _ _)

end Machine.Sourced

/-- A unit that is read from a source text can be written down: at every depth, only names and attributes
are assigned to, class bodies hold items, defaulted parameters come last, integers have no sign and names
are identifiers. In a program of such units, running the unit, merging it and calling any value do the same
whatever an assignment to something else would do: there is none. -/
theorem CodeUnit.assigns_to_targets {source origin : String} {u : CodeUnit}
    (h : parse source origin = .ok u) :
    u.wellFormed = true ∧
      ∀ {ms : List ModuleRef} {m : Machine}, Machine.Sourced ms m → ∀ (other : OtherTarget) (limit : Nat),
        (∀ globals name, u.runElse other limit globals name m = u.run limit globals name m) ∧
        (∀ module, mergeElse other limit u module m = merge limit u module m) ∧
        ∀ f args, Run.callElse other limit f args m = Run.call limit f args m := by
  have hu := wellFormed_of_parse h
  refine ⟨hu, fun hm other limit => ?_⟩
  have hcode := hm.codeWellFormed
  refine ⟨fun globals name => ?_, fun module => ?_, fun f args => ?_⟩
  · exact (run_alike other hu limit globals name _ hcode).1
  · exact (merge_alike other hu limit module hcode).1
  · exact (Run.call_alike other limit f args _ hcode).1

/-- A unit that sets an attribute in a method and merges over itself. -/
theorem CodeUnit.assigns_to_targets_counter :
    ∃ u m, parse "class Counter \x7b fn init(self, by) \x7b self.by = by \x7d \x7d Counter(2)" "counter" =
        .ok u ∧ u.wellFormed = true ∧ Machine.Sourced [⟨0⟩] m ∧
      ∀ other, mergeElse other 64 u ⟨0⟩ m = merge 64 u ⟨0⟩ m := by
  have hparse : (parse "class Counter \x7b fn init(self, by) \x7b self.by = by \x7d \x7d Counter(2)"
      "counter").toBool = true := by decide +kernel
  obtain ⟨u, hu⟩ := except_ok_of_toBool hparse
  have hm := (Machine.Sourced.start.made "counter" none).ran 64 hu (List.mem_singleton_self _) "counter"
  have hall := assigns_to_targets hu
  exact ⟨u, _, hu, hall.1, hm, fun other => (hall.2 hm other 64).2.1 ⟨0⟩⟩

end LivePatch
