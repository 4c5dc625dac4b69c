/-
Methods that are held across a merge. A bound method holds the function that its class had when it was
taken from an instance. A merge gives the class the new function in its place, and changes the old one
only where a shared name leads to it: a name bound to this function, or to a method of it. So a method
that is held elsewhere goes on running the old code, unless its function has a name of its own.
-/
import LivePatch.Proofs.Module.Coverage
import LivePatch.Proofs.Module.Unhooked

namespace LivePatch

/-! ## Calling a method -/

namespace Run

/-- Runs code with its defaults as the body of a function. -/
def enter (limit : Nat) (name module : Name) (globals : ScopeRef) (code : FunctionCode)
    (defaults args : List Value) : Run Value := do
  let d ← depth
  if limit ≤ d then fail (.recursionLimit limit) else
  match bindArguments name code.params defaults args with
  | .error e => fail e
  | .ok locals =>
    match ← deeper (Stmt.runAll (callBy (invokeWithin limit (limit - d)))
      ⟨globals, module, .function locals⟩ code.body) with
    | .leave v => return v
    | .next _ => return .none

theorem invoke_eq_enter (limit : Nat) (f : FunctionRef) (args : List Value) (m : Machine) :
    let o := m.heap.function f
    invoke limit f args m = enter limit o.name o.module o.globals o.state.code o.state.defaults args m := by
  intro o
  show invokeWithin limit (limit - m.depth + 1) f args m = _
  rw [invokeWithin]
  unfold enter
  show EStateM.bind depth _ m = EStateM.bind depth _ m
  unfold EStateM.bind depth
  simp only
  split
  · rfl
  · show EStateM.bind (read (·.function f)) _ m = _
    unfold EStateM.bind read
    simp only
    rfl

/-- A method runs the code of its function, with its receiver as the first argument. -/
theorem call_method (limit : Nat) (r : MethodRef) (args : List Value) (m : Machine) :
    let o := m.heap.function (m.heap.method r).function
    call limit (.method r) args m = enter limit o.name o.module o.globals o.state.code o.state.defaults
      ((m.heap.method r).receiver :: args) m := invoke_eq_enter limit _ _ m

end Run

/-! ## After a merge -/

namespace Merge

/-- What a method of the heap `pre` runs after a merge of a unit that has run on the heap `h`: `ps` are
the pairs of functions and `qs` the pairs of classes that the merge has come to, and `k` is the heap in
the end. -/
structure Held (pre h : Heap) (ps : List (FunctionRef × FunctionRef)) (qs : List (ClassRef × ClassRef))
    (k : Heap) (r : MethodRef) : Prop where
  /-- The method is as it was. -/
  same : k.method r = pre.method r
  /-- A call, at any time until the next merge, runs the code and defaults that its function then has,
  where it was defined, with the receiver that the method has always had. -/
  runs : ∀ (limit : Nat) (args : List Value) (m : Machine), k.Footprint m.heap →
    let o := pre.function (pre.method r).function
    let s := (k.function (pre.method r).function).state
    Run.call limit (.method r) args m =
      Run.enter limit o.name o.module o.globals s.code s.defaults ((pre.method r).receiver :: args) m
  /-- If no shared name leads to the function, these are the old ones. -/
  unpaired : (∀ p ∈ ps, p.1 ≠ (pre.method r).function) →
    (k.function (pre.method r).function).state = (pre.function (pre.method r).function).state
  /-- If some name does, they are those of the last function that it is paired with. -/
  paired : (∃ g, ((pre.method r).function, g) ∈ ps) → ∃ before g after,
    ps = before ++ ((pre.method r).function, g) :: after ∧
      (∀ p ∈ after, p.1 ≠ (pre.method r).function) ∧
      (k.function (pre.method r).function).state.code = (h.function g).state.code ∧
      (k.function (pre.method r).function).state.defaults = (h.function g).state.defaults
  /-- Either way a class that had the function now has the new one, which is another. -/
  replaced : ∀ {c d x g}, (c, d) ∈ qs → x ∉ preservedSlots →
    (pre.type c).attrs.get? x = some (.function (pre.method r).function) →
    (h.type d).attrs.get? x = some (.function g) →
    (k.type c).attrs.get? x = some (.function g) ∧ g ≠ (pre.method r).function

end Merge

/-- In a merge that succeeds and calls no hook, a method that is held anywhere keeps its function. It runs
new code only if a shared name leads to this function; that its class has a new function in its place does
not matter to it. -/
theorem merge_held {limit : Nat} {u : CodeUnit} {module : ModuleRef} {m m₁ m' : Machine} {s : Summary}
    (hc : m.heap.Closed) (hm : m.heap.HasModule module) (he : Merge.Executed limit u module m m₁)
    (h : merge limit u module m = .ok s m')
    (hh : ∀ hook old k, ¬ Merge.CallsHook limit u module m hook old k)
    {r : MethodRef} (hr : r.index < m.heap.methods.size) :
    Merge.Held m.heap m₁.heap
      (m₁.heap.functionPairs (m.heap.bindings module) (m₁.heap.scope m.heap.newScope.1)
        (Merge.sharedNames module m m₁))
      (m₁.heap.classPairs (m.heap.bindings module) (m₁.heap.scope m.heap.newScope.1)
        (Merge.sharedNames module m m₁)) m'.heap r := by
  obtain ⟨j, ht⟩ := he.taken hm hc h hh
  have hi := he.isolated.1
  have hpersists := he.persists.trans (he.merged_persists hm h)
  have hmethod : m'.heap.method r = m.heap.method r := hpersists.methods.get r hr
  -- the function of an old method is old
  have hf : (m.heap.method r).function.index < m.heap.functions.size := by
    have hin : (Value.method r).MadeBetween .empty m.heap := ⟨Nat.zero_le _, hr⟩
    exact (hc.refs (a := .value (.method r)) hin _ (List.mem_cons_of_mem _ (List.mem_cons_self ..))).2
  have hf₁ := Nat.lt_of_lt_of_le hf he.persists.functions.size
  have hfunction : m₁.heap.function (m.heap.method r).function =
      m.heap.function (m.heap.method r).function := hi.kept.functions.get _ hf
  constructor
  · exact hmethod
  · intro limit args k hk o s
    have hkm : k.heap.method r = m.heap.method r :=
      (hk.methods.get r (Nat.lt_of_lt_of_le hr hpersists.methods.size)).trans hmethod
    have hprogram : (k.heap.function (m.heap.method r).function).program = (o.fixed, s.code, s.defaults) := by
      rw [show (k.heap.function _).program = (m'.heap.function (m.heap.method r).function).program from
        hk.functions.get _ (Nat.lt_of_lt_of_le hf hpersists.functions.size)]
      unfold FunctionObject.program
      rw [show (m'.heap.function (m.heap.method r).function).fixed = o.fixed from
        hpersists.functions.get _ hf]
    unfold FunctionObject.program FunctionObject.fixed at hprogram
    simp only [Prod.mk.injEq] at hprogram
    obtain ⟨⟨hname, hmodule, hglobals⟩, hcode, hdefaults⟩ := hprogram
    rw [Run.call_method, hkm, hname, hmodule, hglobals, hcode, hdefaults]
  · intro hno
    rw [ht.functions _ hf₁, Heap.patched_of_ne hno, hfunction]
  · intro hsome
    obtain ⟨before, g, after, hps, hafter, -, hcode, hdefaults⟩ := m₁.heap.patched_last _ hsome
    rw [ht.functions _ hf₁]
    exact ⟨before, g, after, hps, hafter, hcode, hdefaults⟩
  · intro c d x g hp hx hold hnew
    have hcd : m₁.heap.sharedClasses? c d x = none := by
      unfold Heap.sharedClasses?
      rw [hnew]
      split
      · rename_i hd
        cases hd
      · rfl
    constructor
    · rw [show (m'.heap.type c).attrs.get? x = m₁.heap.slotAfter c d x from ht.took _ hp x]
      unfold Heap.slotAfter
      rw [if_neg fun hpre => hx hpre.1, hcd]
      exact hnew
    · rintro rfl
      -- the unit has made the new class, and so its functions
      obtain ⟨-, hd⟩ := he.paired_made hc (Heap.paired_of_mem_classPairs hp)
      have hg := hi.closed.refs (a := .value (.type d)) hd (.value (.function _))
        (List.mem_append_right _ (List.mem_map_of_mem (Bindings.mem_values_of_get? hnew)))
      exact Nat.not_lt.2 hg.1 hf

namespace Sample

/-- A class with a method that returns a number. -/
def greeter (n : Int64) : Stmt :=
  .classDef "G" [] [.function "hello" [⟨"self", none⟩] [.leave (some (.int n .dummy)) .dummy] none .dummy]
    none .dummy

/-- A module that has taken the method of an instance. -/
def held : Machine :=
  machine [greeter 1, .bind "say" (.attr (.call (.ident "G" .dummy) [] .dummy) "hello" .dummy) .dummy]

/-- A unit in which the method is another, and has not been taken. -/
def greeting : CodeUnit := ⟨"m", [greeter 2]⟩

def greetingRun : Machine :=
  Run.final (greeting.run 10 held.heap.newScope.1 "m" { held with heap := held.heap.newScope.2 })

def greeted : Machine := Run.final (merge 10 greeting module held)

theorem greeting_executed : Merge.Executed 10 greeting module held greetingRun := Run.eq_ok_final rfl

theorem greeting_merged : merge 10 greeting module held = .ok ⟨[], ["say"], ["G"], []⟩ greeted :=
  Run.eq_ok_final (by decide +kernel)

theorem greeting_calls_no_hook (hook old : Value) (k : Machine) :
    ¬ Merge.CallsHook 10 greeting module held hook old k :=
  greeting_executed.calls_no_hook_of_values (machine_hasModule _) (machine_closed _) (by decide +kernel)
    hook old k

end Sample

/-- The method goes on returning the old number, and the class has a function that returns the new one. -/
theorem merge_held_greeter :
    Merge.Held Sample.held.heap Sample.greetingRun.heap
        (Sample.greetingRun.heap.functionPairs (Sample.held.heap.bindings Sample.module)
          (Sample.greetingRun.heap.scope Sample.held.heap.newScope.1)
          (Merge.sharedNames Sample.module Sample.held Sample.greetingRun))
        (Sample.greetingRun.heap.classPairs (Sample.held.heap.bindings Sample.module)
          (Sample.greetingRun.heap.scope Sample.held.heap.newScope.1)
          (Merge.sharedNames Sample.module Sample.held Sample.greetingRun)) Sample.greeted.heap ⟨0⟩ ∧
      (∃ k, Run.call 10 (.method ⟨0⟩) [] Sample.greeted = .ok (.int 1) k) ∧
      Sample.greeted.heap.lookup ⟨0⟩ "hello" = some (.function ⟨1⟩) ∧
      ∃ k, Run.call 10 (.function ⟨1⟩) [.none] Sample.greeted = .ok (.int 2) k :=
  ⟨merge_held (Sample.machine_closed _) (Sample.machine_hasModule _) Sample.greeting_executed
    Sample.greeting_merged Sample.greeting_calls_no_hook (by decide +kernel),
    ⟨_, Run.eq_ok_final (by decide +kernel)⟩, by decide +kernel, ⟨_, Run.eq_ok_final (by decide +kernel)⟩⟩

end LivePatch
