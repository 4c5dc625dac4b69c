/-
The parameters of every function in every program of units that are read from source texts. Whatever the host has
done, and at every moment while it has code run, each function has its code from a definition that was carried out,
also after merges have updated it or have gone back. A call of it binds its parameters to the arguments and to the
values that the default expressions of this definition had.
-/
import LivePatch.Proofs.Module.Sourced
import LivePatch.Proofs.Module.Supply

namespace LivePatch

/-! ## Deeds -/

namespace Deed

section

variable (limit : Nat) (m : Machine)

/-- The definitions that are carried out in the course of a deed, with the functions that they make. -/
def births (d : Deed) : Supply := fun f b => b.limit = limit ∧ d.Happens limit m b.moment ∧ b.Makes f

/-- What the functions have that were made before the deed, and what those have that are made in its course. -/
def given (S : Supply) (d : Deed) : Supply := fun f b => S f b ∨ d.births limit m f b

/-- The runs of code that a deed consists of, and where the functions have their code from while each of them is
going on. -/
inductive Runs (S : Supply) : Deed → Moment → Supply → Prop
  | ran {u : CodeUnit} {module : ModuleRef} {name : Name} :
      Runs S (run u module name) ⟨.runAll ⟨(m.heap.module module).scope, name, .module⟩ u.body, m⟩
        ((run u module name).given limit m S)
  | unit {u : CodeUnit} {module : ModuleRef} :
      Runs S (merge u module) ⟨.runAll ⟨m.heap.newScope.1, (m.heap.module module).name, .module⟩ u.body,
        { m with heap := m.heap.newScope.2 }⟩ ((merge u module).given limit m S)
  | hook {u : CodeUnit} {module : ModuleRef} {m₁ k : Machine} {done todo : List Name} {x : Name} {a : Merge.Stage}
      {T : Supply} {old hook : Value} (he : Merge.Executed limit u module m m₁)
      (hs : Merge.sharedNames module m m₁ = done ++ x :: todo)
      (hT : Merge.Supplies limit module m m₁ ((merge u module).given limit m S) done a T)
      (ha : Merge.AsksAt m.heap.newScope.1 (m.heap.module module).scope x a old hook k) :
      Runs S (merge u module) ⟨Run.callActivity k hook [old], k⟩ T
  | called {f : Value} {args : List Value} :
      Runs S (call f args) ⟨Run.callActivity m f args, m⟩ ((call f args).given limit m S)

/-- The machine in the course of a deed, and where the functions have their code from: whenever something begins or
has ended, at every stage of a merge, and when a merge has gone back. -/
inductive Course (S : Supply) (d : Deed) : Machine → Supply → Prop
  | begins {root p : Moment} {T : Supply} (hr : d.Runs limit m S root T) (hp : Activity.Happens limit root p) :
      Course S d p.machine T
  | ends {root p : Moment} {T : Supply} (hr : d.Runs limit m S root T) (hp : Activity.Happens limit root p) :
      Course S d (p.activity.final limit p.machine) T
  | stage {u : CodeUnit} {module : ModuleRef} {m₁ : Machine} {done todo : List Name} {a : Merge.Stage} {T : Supply}
      (hd : d = merge u module) (he : Merge.Executed limit u module m m₁)
      (hs : Merge.sharedNames module m m₁ = done ++ todo)
      (hT : Merge.Supplies limit module m m₁ (d.given limit m S) done a T) : Course S d a.machine T
  | undone {u : CodeUnit} {module : ModuleRef} {x : Name} {a : Merge.Stage} {old hook : Value} {k m' : Machine}
      {e : Halt RunError} (hd : d = merge u module) (ht : Merge.Turn limit u module m x a)
      (ha : Merge.AsksAt m.heap.newScope.1 (m.heap.module module).scope x a old hook k)
      (hc : Run.call limit hook [old] k = .error e m') :
      Course S d { m' with heap := a.journal.rollback m'.heap } (d.given limit m S)

end

variable {limit : Nat} {ms : List ModuleRef} {m : Machine} {S T : Supply} {d : Deed} {root : Moment}

theorem Runs.opens (h : d.Runs limit m S root T) : d.Opens limit m root := by
  cases h with
  | ran => exact .ran
  | unit => exact .unit
  | called => exact .called
  | hook he hs hT ha => exact .hook ⟨_, _, ⟨_, _, _, he, hs, hT.reaches⟩, ha⟩

theorem Opens.runs (h : d.Opens limit m root) (S : Supply) : ∃ T, d.Runs limit m S root T := by
  cases h with
  | ran => exact ⟨_, .ran⟩
  | unit => exact ⟨_, .unit⟩
  | called => exact ⟨_, .called⟩
  | @hook u module hook old k h =>
    obtain ⟨x, a, ⟨m₁, done, todo, he, hs, hr⟩, ha⟩ := h
    obtain ⟨T, hT⟩ := hr.supplies ((merge u module).given limit m S)
    exact ⟨T, .hook he hs hT ha⟩

theorem Opens.births (h : d.Opens limit m root) (f : FunctionRef) (b : Definition) (hb : root.births limit f b) :
    d.given limit m S f b := .inr ⟨hb.1, ⟨root, h, hb.2.1⟩, hb.2.2⟩

/-- At every moment in the course of a deed it is settled where the functions have their code from. -/
theorem Passes.course {k : Machine} (h : d.Passes limit m k) (S : Supply) : ∃ T, d.Course limit m S k T := by
  cases h with
  | begins h =>
    obtain ⟨root, ho, hp⟩ := h
    obtain ⟨T, hT⟩ := ho.runs S
    exact ⟨T, .begins hT hp⟩
  | ends h =>
    obtain ⟨root, ho, hp⟩ := h
    obtain ⟨T, hT⟩ := ho.runs S
    exact ⟨T, .ends hT hp⟩
  | stage hd he hs hr =>
    obtain ⟨T, hT⟩ := hr.supplies (d.given limit m S)
    exact ⟨T, .stage hd he hs hT⟩
  | done =>
    cases d with
    | run u module name =>
      refine ⟨(run u module name).given limit m S, ?_⟩
      rw [final, CodeUnit.run_final]
      exact .ends .ran .start
    | call f args => exact ⟨_, .ends .called .start⟩
    | merge u module =>
      show ∃ T, (merge u module).Course limit m S (Run.final (LivePatch.merge limit u module m)) T
      cases hr : LivePatch.merge limit u module m with
      | ok s m' =>
        obtain ⟨m₁, a, he, hp, -, rfl⟩ := Merge.succeeds hr
        obtain ⟨T, hT⟩ := hp.supplies ((merge u module).given limit m S)
        exact ⟨T, .stage rfl he (List.append_nil _).symm hT⟩
      | error e m' =>
        -- the unit has failed, or a hook has; after a hook that fails the merge goes back
        show ∃ T, (merge u module).Course limit m S m' T
        rcases Merge.stops hr with ⟨e', hr⟩ | ⟨x, a, old, hook, k, e', m₂, ht, ha, hcall, hback⟩
        · refine ⟨(merge u module).given limit m S, ?_⟩
          rw [← show Run.final _ = m' from congrArg Run.final hr, CodeUnit.run_final]
          exact .ends .unit .start
        · rcases hback with rfl | ⟨-, rfl⟩
          · exact ⟨_, .undone rfl ht ha hcall⟩
          · obtain ⟨T, hT⟩ := (Opens.hook ⟨x, a, ht, ha⟩ : (merge u module).Opens limit m _).runs S
            refine ⟨T, ?_⟩
            rw [← show (Run.callActivity k hook [old]).final limit k = m' from congrArg Run.final hcall]
            exact .ends hT .start

/-! ## What is held in the course of a deed -/

section

variable {u : CodeUnit} {module : ModuleRef} {m₁ : Machine}

/-- When the unit of a merge has run, each function has what it is said to have. -/
theorem given_held (he : Merge.Executed limit u module m m₁) (hu : u.wellFormed = true) (hS : S.Held m.heap) :
    ((merge u module).given limit m S).Held m₁.heap := by
  let root : Moment := ⟨.runAll ⟨m.heap.newScope.1, (m.heap.module module).name, .module⟩ u.body,
    { m with heap := m.heap.newScope.2 }⟩
  have hfinal : root.activity.final limit root.machine = m₁ :=
    (u.run_final limit _ _ _).symm.trans (congrArg Run.final he)
  have hstart : S.Held root.machine.heap := hS.of_same (.of_functions rfl)
  have hbirths := Opens.births (S := S) (Opens.unit : (merge u module).Opens limit m root)
  have hgrows := Activity.final_grows (S := (merge u module).given limit m S) root hu hstart.codeWellFormed hbirths
  rw [hfinal] at hgrows
  exact hgrows.held (hstart.mono fun _ _ => .inl) fun _ _ _ hb => hb

variable (hh : Machine.Reachable ms m) (hd : module ∈ ms) (hu : u.wellFormed = true) (hS : S.Held m.heap)

include hh hd hu hS

theorem stage_kept (he : Merge.Executed limit u module m m₁) {done todo : List Name}
    (hs : Merge.sharedNames module m m₁ = done ++ todo) {a : Merge.Stage}
    (hT : Merge.Supplies limit module m m₁ ((merge u module).given limit m S) done a T) :
    ((merge u module).given limit m S).Kept T ⟨a.journal, a.machine.heap⟩ := by
  obtain ⟨hc, hmodules, -⟩ := hh.hosts
  exact he.stage_kept (hmodules _ hd) hc (given_held he hu hS)
    (fun hook old k hcalls => Opens.births (.hook hcalls)) hs hT

/-- A hook is called when each function has what it is said to have. -/
theorem asked_kept (he : Merge.Executed limit u module m m₁) {done todo : List Name}
    (hs : Merge.sharedNames module m m₁ = done ++ todo) {a : Merge.Stage}
    (hT : Merge.Supplies limit module m m₁ ((merge u module).given limit m S) done a T) {x : Name} {old hook : Value}
    {k : Machine} (ha : Merge.AsksAt m.heap.newScope.1 (m.heap.module module).scope x a old hook k) :
    ((merge u module).given limit m S).Kept T ⟨a.journal, k.heap⟩ := by
  obtain ⟨-, new, -, hasks⟩ := ha
  obtain ⟨found, -, -, rfl⟩ := hasks.found
  exact (stage_kept hh hd hu hS he hs hT).of_same (.obtain _ found)

end

section

variable (hh : Machine.Reachable ms m) (hd : d.Allowed ms m) (hu : ∀ u ∈ d.unit?, u.wellFormed = true)
  (hS : S.Held m.heap)

include hh hd hu hS

/-- When a run of code begins in the course of a deed, each function has what it is said to have, and those that are
made in the run have what they are made with. -/
theorem Runs.held (hr : d.Runs limit m S root T) : root.activity.wellFormed = true ∧ T.Held root.machine.heap ∧
    ∀ f b, root.machine.heap.functions.size ≤ f.index → root.births limit f b → T f b := by
  have hopens := hr.opens
  have hgiven : ∀ {h : Heap}, m.heap.SamePrograms h → (d.given limit m S).Held h :=
    fun hs => (hS.of_same hs).mono fun _ _ => .inl
  cases hr with
  | ran => exact ⟨hu _ rfl, hgiven (.refl _), fun f b _ => hopens.births f b⟩
  | unit => exact ⟨hu _ rfl, hgiven (.of_functions rfl), fun f b _ => hopens.births f b⟩
  | called => exact ⟨rfl, hgiven (.refl _), fun f b _ => hopens.births f b⟩
  | hook he hs hT ha =>
    have hkept := asked_kept hh hd (hu _ rfl) hS he hs hT ha
    exact ⟨rfl, hkept.held, fun f b hle hb => hkept.fresh f b hle (hopens.births f b hb)⟩

/-- In the course of a deed each function has what it is said to have. -/
theorem Course.held {k : Machine} (hk : d.Course limit m S k T) : T.Held k.heap := by
  cases hk with
  | begins hr hp =>
    obtain ⟨hw, hroot, hfresh⟩ := hr.held hh hd hu hS
    exact (hp.grows hw hroot.codeWellFormed).2.held hroot hfresh
  | ends hr hp =>
    obtain ⟨hw, hroot, hfresh⟩ := hr.held hh hd hu hS
    exact (hp.grows_end hw hroot.codeWellFormed).held hroot hfresh
  | stage hmerge he hs hT =>
    subst hmerge
    exact (stage_kept hh hd (hu _ rfl) hS he hs hT).held
  | @undone u module x a old hook k m' e hmerge ht ha hc =>
    subst hmerge
    obtain ⟨m₁, done, todo, he, hs, hr⟩ := id ht
    obtain ⟨T, hT⟩ := hr.supplies ((merge u module).given limit m S)
    have hkept := asked_kept hh hd (hu _ rfl) hS he hs hT ha
    have hgrows := Activity.final_grows (S := (merge u module).given limit m S) ⟨Run.callActivity k hook [old], k⟩ rfl
      hkept.held.codeWellFormed (Opens.births (.hook ⟨x, a, ht, ha⟩))
    have hfinal : (Run.callActivity k hook [old]).final limit k = m' := congrArg Run.final hc
    dsimp only at hgrows
    rw [hfinal] at hgrows
    exact (hkept.grows hgrows fun _ _ hb => hb).rollback

end

end Deed

/-! ## Programs of source texts -/

/-- The unit has been read from a source text. -/
def CodeUnit.Parsed (u : CodeUnit) : Prop := ∃ source origin, parse source origin = .ok u

/-- The modules and the machine that a host comes to from nothing when every unit is read from a source text, and
where the functions have their code from. -/
inductive Machine.Supplied : List ModuleRef → Machine → Supply → Prop
  | start : Supplied [] ⟨.empty, 0⟩ fun _ _ => False
  | did {ms : List ModuleRef} {m : Machine} {S T : Supply} (h : Supplied ms m S) (limit : Nat) {d : Deed}
      (hd : d.Allowed ms m) (hu : ∀ u ∈ d.unit?, u.Parsed) (hT : d.Course limit m S (d.final limit m) T) :
      Supplied ms (d.final limit m) T
  | made {ms : List ModuleRef} {m : Machine} {S : Supply} (h : Supplied ms m S) (name : Name)
      (places : Option (List Path)) :
      Supplied ((m.heap.newModule name places).1 :: ms) { m with heap := (m.heap.newModule name places).2 } S
  | noted {ms : List ModuleRef} {m : Machine} {S : Supply} (h : Supplied ms m S) (module : ModuleRef)
      (origin : Path) : Supplied ms { m with heap := m.heap.setOrigin module origin } S
  | got {ms : List ModuleRef} {m : Machine} {S : Supply} (h : Supplied ms m S) {v : Value} (hv : m.heap.There v)
      (x : Name) : Supplied ms (Run.final (Run.getAttr v x m)) S
  | set {ms : List ModuleRef} {m : Machine} {S : Supply} (h : Supplied ms m S) {target v : Value}
      (ht : m.heap.There target) (hv : m.heap.There v) (x : Name) :
      Supplied ms (Run.final (Run.setAttr target x v m)) S
  | bound {ms : List ModuleRef} {m : Machine} {S : Supply} (h : Supplied ms m S) {module : ModuleRef}
      (hm : module ∈ ms) (x : Name) {v : Value} (hv : m.heap.There v) :
      Supplied ms { m with heap := m.heap.modifyScope (m.heap.module module).scope (·.insert x v) } S
  | unbound {ms : List ModuleRef} {m : Machine} {S : Supply} (h : Supplied ms m S) {module : ModuleRef}
      (hm : module ∈ ms) {x : Name} (hx : x ≠ selfName) :
      Supplied ms { m with heap := m.heap.modifyScope (m.heap.module module).scope (·.erase x) } S

namespace Machine

variable {ms : List ModuleRef} {m : Machine} {S : Supply}

theorem Supplied.sourced (h : Supplied ms m S) : Sourced ms m := by
  induction h with
  | start => exact .start
  | @did ms m S T h limit d hd hu hT ih =>
    cases d with
    | run u module name =>
      obtain ⟨source, origin, hparse⟩ := hu u rfl
      exact ih.ran limit hparse hd name
    | merge u module =>
      obtain ⟨source, origin, hparse⟩ := hu u rfl
      exact ih.merged limit hparse hd
    | call f args => exact ih.called limit hd.1 hd.2
  | made _ name places ih => exact ih.made name places
  | noted _ module origin ih => exact ih.noted module origin
  | got _ hv x ih => exact ih.got hv x
  | set _ ht hv x ih => exact ih.set ht hv x
  | bound _ hm x hv ih => exact ih.bound hm x hv
  | unbound _ hm hx ih => exact ih.unbound hm hx

/-- Whatever the host has done, it is settled where the functions have their code from. -/
theorem Sourced.supplied (h : Sourced ms m) : ∃ S, Supplied ms m S := by
  have hdeed : ∀ {ms m} (limit : Nat) {d : Deed}, d.Allowed ms m → (∀ u ∈ d.unit?, u.Parsed) →
      (∃ S, Supplied ms m S) → ∃ S, Supplied ms (d.final limit m) S := by
    rintro ms m limit d hd hu ⟨S, hS⟩
    obtain ⟨T, hT⟩ := Deed.Passes.course (.done : d.Passes limit m _) S
    exact ⟨T, hS.did limit hd hu hT⟩
  have hparsed : ∀ {u u' : CodeUnit} {source origin : String}, CodeUnit.parse source origin = .ok u →
      u' ∈ some u → u'.Parsed := by
    rintro u u' source origin hu he
    cases he
    exact ⟨source, origin, hu⟩
  induction h with
  | start => exact ⟨_, .start⟩
  | made _ name places ih => exact ih.imp fun _ hS => hS.made name places
  | noted _ module origin ih => exact ih.imp fun _ hS => hS.noted module origin
  | @ran ms m _ limit source origin u hu module hm name ih =>
    exact hdeed limit (d := .run u module name) hm (fun _ => hparsed hu) ih
  | @merged ms m _ limit source origin u hu module hm ih =>
    exact hdeed limit (d := .merge u module) hm (fun _ => hparsed hu) ih
  | @called ms m _ limit f args hf ha ih => exact hdeed limit (d := .call f args) ⟨hf, ha⟩ nofun ih
  | got _ hv x ih => exact ih.imp fun _ hS => hS.got hv x
  | set _ ht hv x ih => exact ih.imp fun _ hS => hS.set ht hv x
  | bound _ hm x hv ih => exact ih.imp fun _ hS => hS.bound hm x hv
  | unbound _ hm hx ih => exact ih.imp fun _ hS => hS.unbound hm hx

/-- By induction on what the host does: only the deeds that run code bring code to the heap. -/
theorem Supplied.held (h : Supplied ms m S) : S.Held m.heap := by
  induction h with
  | start => exact fun f hf => absurd hf (Nat.not_lt_zero _)
  | did h limit hd hu hT ih =>
    refine hT.held h.sourced.reachable hd (fun u hu' => ?_) ih
    obtain ⟨source, origin, hparse⟩ := hu u hu'
    exact CodeUnit.wellFormed_of_parse hparse
  | made | noted | bound | unbound => exact Supply.Held.of_same ‹_› (.of_functions rfl)
  | got _ _ x ih => exact ih.of_same ((Run.steady_getAttr _ x).programs _)
  | set _ _ _ x ih => exact ih.of_same ((Run.steady_setAttr _ x _).programs _)

/-- Each function whose parameters have distinct names has its code from a definition that the supply names, in
which the defaulted parameters come last, and a call below the limit binds the parameters as this definition says. -/
def Accounts (S : Supply) (m : Machine) : Prop :=
  ∀ f : FunctionRef, f.index < m.heap.functions.size → (m.heap.function f).state.code.params.Nodup →
    ∃ b, S f b ∧ (m.heap.function f).state.code = b.code ∧ b.DefaultsLast ∧
      ∀ limit args, m.depth < limit → b.Answers limit f args m

theorem accounts_of_held (h : S.Held m.heap) : m.Accounts S := by
  intro f hf hn
  obtain ⟨b, hb, hw, hfits⟩ := h f hf
  exact ⟨b, hb, hfits.code, (Definition.defaultsLast_of_wellFormed hw).1, fun _ _ hd => hfits.answers hw hn hd⟩

/-- In a program of units that are read from source texts it is settled at every moment where each function has its
code from, and every call of it binds its parameters to the arguments and to the values that the default expressions
had in the definition that has supplied its code. -/
theorem Sourced.calls_bind_parameters (h : Sourced ms m) :
    (∃ S, Supplied ms m S) ∧ ∀ S, Supplied ms m S → m.Accounts S ∧
      ∀ (limit : Nat) (d : Deed), d.Allowed ms m → (∀ u ∈ d.unit?, u.Parsed) →
        (∀ k, d.Passes limit m k → ∃ T, d.Course limit m S k T) ∧
        ∀ k T, d.Course limit m S k T → k.Accounts T := by
  refine ⟨h.supplied, fun S hS => ⟨accounts_of_held hS.held, fun limit d hd hu => ?_⟩⟩
  refine ⟨fun k hk => hk.course S, fun k T hk => accounts_of_held ?_⟩
  refine hk.held h.reachable hd (fun u hu' => ?_) hS.held
  obtain ⟨source, origin, hparse⟩ := hu u hu'
  exact CodeUnit.wellFormed_of_parse hparse

end Machine

namespace Sample

/-- The unit that a source text of the module `m` is read as. -/
def read (source : String) : CodeUnit :=
  match CodeUnit.parse source "m" with
  | .ok u => u
  | .error _ => ⟨"m", []⟩

theorem parse_read {source : String} (h : (CodeUnit.parse source "m").toBool = true) :
    CodeUnit.parse source "m" = .ok (read source) := by
  obtain ⟨u, hu⟩ := except_ok_of_toBool h
  unfold read
  rw [hu]

/-- A function with a default, and the same function with another one. -/
def defaulting : CodeUnit := read "fn f(a, b = 2) \x7b return b \x7d"

def redefaulting : CodeUnit := read "fn f(a, b = 3) \x7b return b \x7d"

/-- The machine after the module `m` has run the first of the two. -/
def defaulted : Machine :=
  let heap := (Heap.empty.newModule "m" none).2
  Run.final (defaulting.run 10 (heap.module module).scope "m" ⟨heap, 0⟩)

end Sample

open Sample in
/-- A merge gives the function the default of the new definition together with its code. -/
theorem Machine.Sourced.calls_bind_parameters_patched :
    Sourced [module] defaulted ∧ ∃ S T, Supplied [module] defaulted S ∧
      (Deed.merge redefaulting module).Course 10 defaulted S (mergedInto redefaulting defaulted) T ∧
      (∃ b, T ⟨0⟩ b ∧ b.params.map (·.name) = ["a", "b"] ∧ b.DefaultsLast ∧
        ∀ args, b.Answers 10 ⟨0⟩ args (mergedInto redefaulting defaulted)) ∧
      Run.value? (Run.call 10 (.function ⟨0⟩) [.int 1] defaulted) = some (.int 2) ∧
      Run.value? (Run.call 10 (.function ⟨0⟩) [.int 1] (mergedInto redefaulting defaulted)) = some (.int 3) := by
  have hfirst : CodeUnit.parse _ "m" = .ok defaulting := parse_read (by decide +kernel)
  have hsecond : CodeUnit.parse _ "m" = .ok redefaulting := parse_read (by decide +kernel)
  have hm : Sourced [module] defaulted :=
    (Sourced.start.made "m" none).ran 10 hfirst (List.mem_singleton_self _) "m"
  have hd : (Deed.merge redefaulting module).Allowed [module] defaulted := List.mem_singleton_self _
  have hu : ∀ u ∈ (Deed.merge redefaulting module).unit?, u.Parsed := by
    rintro u hu
    cases hu
    exact ⟨_, _, hsecond⟩
  obtain ⟨⟨S, hS⟩, hall⟩ := calls_bind_parameters hm
  obtain ⟨hcourse, hbinds⟩ := (hall S hS).2 10 (.merge redefaulting module) hd hu
  obtain ⟨T, hT⟩ := hcourse _ .done
  have hfunction : 0 < (mergedInto redefaulting defaulted).heap.functions.size ∧
      ((mergedInto redefaulting defaulted).heap.function ⟨0⟩).state.code.params = ["a", "b"] ∧
      (mergedInto redefaulting defaulted).depth < 10 := by decide +kernel
  obtain ⟨hsize, hparams, hdepth⟩ := hfunction
  obtain ⟨b, hb, hcode, hlast, hanswers⟩ := hbinds _ T hT ⟨0⟩ hsize (by
    rw [show ((Deed.merge redefaulting module).final 10 defaulted).heap.function ⟨0⟩ =
      (mergedInto redefaulting defaulted).heap.function ⟨0⟩ from rfl, hparams]
    decide)
  refine ⟨hm, S, T, hS, hT, ⟨b, hb, ?_, hlast, fun args => hanswers 10 args hdepth⟩, by decide +kernel,
    by decide +kernel⟩
  exact (congrArg FunctionCode.params hcode).symm.trans hparams

end LivePatch
