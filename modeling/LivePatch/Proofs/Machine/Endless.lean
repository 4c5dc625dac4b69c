/-
What has no end. An activity has none exactly if one of its parts has none, unless it is a call that is given up
because it may follow no class any more. A call that is made may follow more classes than there are, and it is
given up only where calling the value goes on from one `init` to the next for ever. So whatever has no end has come
to such a call, and whatever comes to such a call has no end: neither bound of the rules of calling, the one on the
nesting and the one on the classes followed, ever decides how a run ends.
-/
import LivePatch.Proofs.Machine.Parts

namespace LivePatch

/-! ## An activity and its parts -/

namespace Run

variable {α : Type}

/-- The run has no end, and the heap is what it has come to when it is given up. -/
def HasNoEnd (r : EStateM.Result (Halt RunError) Machine α) (h : Heap) : Prop :=
  ∃ m : Machine, r = .error .divergence m ∧ m.heap = h

@[simp]
theorem not_hasNoEnd_ok {a : α} {m : Machine} {h : Heap} : ¬ HasNoEnd (.ok a m) h := by
  rintro ⟨k, hk, -⟩
  cases hk

@[simp]
theorem hasNoEnd_error {e : Halt RunError} {m : Machine} {h : Heap} :
    HasNoEnd (α := α) (.error e m) h ↔ e = .divergence ∧ m.heap = h := by
  constructor
  · rintro ⟨_, ⟨⟩, hh⟩
    exact ⟨rfl, hh⟩
  · rintro ⟨rfl, hh⟩
    exact ⟨m, rfl, hh⟩

theorem not_hasNoEnd_failure {e : RunError} {m : Machine} {h : Heap} :
    ¬ HasNoEnd (α := α) (.error (.failure e) m) h := by
  rintro ⟨k, hk, -⟩
  cases hk

theorem hasNoEnd_ending {r : EStateM.Result (Halt RunError) Machine α} {h : Heap} :
    HasNoEnd (ending r) h ↔ HasNoEnd r h := by
  cases r <;> simp [ending]

end Run

namespace Activity

variable {limit d : Nat} {m : Machine} {h : Heap} {p root : Moment}

theorem Done.hasNoEnd_iff {givenUp : Prop} {qs : List Moment} {r : EStateM.Result (Halt RunError) Machine Unit}
    (hdone : Done limit d givenUp m qs r) (hg : ¬ givenUp) :
    Run.HasNoEnd r h ↔ ∃ q ∈ qs, Run.HasNoEnd (q.activity.ending limit q.machine) h := by
  induction hdone with
  | last _ hr =>
    constructor
    · rintro ⟨k, hk, -⟩
      exact absurd (hr k hk) hg
    · rintro ⟨q, hq, -⟩
      cases hq
  | part _ _ hend _ ih =>
    -- the first part has come to an end, so it is not the one that has none
    rw [ih, List.exists_mem_cons_iff, hend, or_iff_right Run.not_hasNoEnd_ok]
  | stops _ _ hend hl =>
    simp only [List.mem_singleton, exists_eq_left, hend, Run.hasNoEnd_error, hl]

theorem define_hasNoEnd_iff {frame : Frame} {name : Name} {params : List Param} {body : List Stmt}
    {doc : Option String} : Run.HasNoEnd ((define frame name params body doc).ending limit m) h ↔
      Run.HasNoEnd ((evalAll frame (params.filterMap (·.default))).ending limit m) h := by
  show Run.HasNoEnd (Run.ending (Run.defineFunction (Run.call limit) frame name params body doc m)) h ↔
    Run.HasNoEnd (Run.ending (Expr.evalAll (Run.call limit) frame (params.filterMap (·.default)) m)) h
  rw [Run.defineFunction]
  cases hr : Expr.evalAll (Run.call limit) frame (params.filterMap (·.default)) m with
  | ok vs k =>
    rw [bind_of_ok hr]
    exact iff_of_false Run.not_hasNoEnd_ok Run.not_hasNoEnd_ok
  | error e k =>
    rw [bind_of_error hr]
    rfl

/-- Of an activity that is not given up one of its parts has no end if the activity has none, and the other way
round. -/
theorem hasNoEnd_iff {a : Activity} (ha : ¬ a.IsGivenUp) (m : Machine) :
    Run.HasNoEnd (a.ending limit m) h ↔
      ∃ q ∈ a.parts limit m, Run.HasNoEnd (q.activity.ending limit q.machine) h := by
  by_cases hdef : a.IsDefinition
  · cases a with
    | define frame name params body doc =>
      rw [define_hasNoEnd_iff]
      simp only [parts, List.mem_singleton, exists_eq_left]
    | _ => exact hdef.elim
  · exact (parts_done hdef m).hasNoEnd_iff ha

/-- What has no end is in nothing that has one. -/
theorem Happens.hasNoEnd (hp : Happens limit root p) (hno : Run.HasNoEnd (p.activity.ending limit p.machine) h) :
    Run.HasNoEnd (root.activity.ending limit root.machine) h := by
  induction hp with
  | start => exact hno
  | @part p q _ hq ih =>
    refine ih ((hasNoEnd_iff (fun hg => ?_) p.machine).2 ⟨q, hq, hno⟩)
    -- what is given up has no parts
    obtain ⟨a, m⟩ := p
    cases a with
    | call n => cases n <;> first | cases hq | exact hg
    | _ => exact hg

/-! ## Calls in an activity -/

/-- The activity comes to call a value that is called without end, and has from there on made nothing but
instances, with which the heap is `h`. -/
def CallsEndless (limit : Nat) (root : Moment) (h : Heap) : Prop :=
  ∃ (k : Machine) (callee : Value) (args : List Value), Happens limit root ⟨Run.callActivity k callee args, k⟩ ∧
    k.heap.Endless callee ∧ k.heap.OnlyInstances h

theorem CallsEndless.of_part {q : Moment} (hq : q ∈ p.activity.parts limit p.machine)
    (hc : CallsEndless limit q h) : CallsEndless limit p h := by
  obtain ⟨k, callee, args, hk, he⟩ := hc
  exact ⟨k, callee, args, (Happens.start.part hq).trans hk, he⟩

theorem callsEndless_of_endless {callee : Value} {args : List Value} (he : m.heap.Endless callee)
    (hno : Run.HasNoEnd ((Run.callActivity m callee args).ending limit m) h) :
    CallsEndless limit ⟨Run.callActivity m callee args, m⟩ h := by
  obtain ⟨k, hk, hmade⟩ := Run.callBy_endless (Run.invoke limit) args he
  obtain ⟨_, hr, rfl⟩ := Run.hasNoEnd_ending.1 hno
  cases hk.symm.trans hr
  exact ⟨m, callee, args, .start, he, hmade⟩

/-- What comes to such a call has no end. -/
theorem CallsEndless.hasNoEnd (hc : CallsEndless limit root h) :
    ∃ h', Run.HasNoEnd (root.activity.ending limit root.machine) h' := by
  obtain ⟨k, callee, args, hp, he, -⟩ := hc
  obtain ⟨l, hl, -⟩ := Run.callBy_endless (Run.invoke limit) args he
  exact ⟨l, hp.hasNoEnd (Run.hasNoEnd_ending.2 ⟨_, hl, rfl⟩)⟩

/-- The activity is no call, or it is one that may follow all the classes that there are to follow. -/
def FollowsAll (p : Moment) : Prop :=
  match p.activity with
  | call n callee _ => p.machine.heap.initAfter? n callee = none
  | _ => True

/-- A call that is a part of evaluating an expression may follow as many classes as there are and more. -/
theorem call_of_mem_exprParts {frame : Frame} {e : Expr} {n : Nat} {callee : Value} {args : List Value}
    {k : Machine} (hq : ⟨call n callee args, k⟩ ∈ exprParts limit frame m e) :
    n = k.heap.classes.size + 2 := by
  cases e with
  | call callee' args' =>
    simp only [exprParts, List.mem_cons, Run.mem_andThen, Moment.mk.injEq, reduceCtorEq, false_and, false_or,
      List.not_mem_nil, or_false] at hq
    obtain ⟨f, m₁, -, vs, m₂, -, hcall, rfl⟩ := hq
    cases hcall
    rfl
  | binary op left right =>
    rcases List.mem_cons.1 hq with hq | hq
    · cases hq
    · obtain ⟨v, m₁, -, hq⟩ := Run.mem_andThen.1 hq
      cases eq_of_mem_rightPart hq
  | _ => simp [exprParts] at hq

/-- A call that is a part of a call is one of what is in the place of an initialiser. -/
theorem call_of_mem_callParts {i n : Nat} {v callee : Value} {vs args : List Value} {k : Machine}
    (hq : ⟨call n callee args, k⟩ ∈ callParts i vs m v) :
    n = i ∧ m.heap.initOf? v = some callee ∧ k.heap.classes = m.heap.classes := by
  cases v with
  | type c =>
    unfold callParts at hq
    dsimp only at hq
    unfold Heap.initOf?
    dsimp only
    split at hq
    · cases List.mem_singleton.1 hq
    · rename_i w hw hv
      cases List.mem_singleton.1 hq
      refine ⟨rfl, ?_, m.heap.classes_newInstance c⟩
      rw [hv]
      split
      · rename_i f hf
        cases hf
        exact absurd rfl (hw f)
      · rfl
    · cases hq
  | function | method => cases List.mem_singleton.1 hq
  | _ => cases hq

/-- Only the evaluation of a call and a call have a call as their part. -/
theorem call_of_mem_parts {a : Activity} {n : Nat} {callee : Value} {args : List Value} {k : Machine}
    (hq : ⟨call n callee args, k⟩ ∈ a.parts limit m) : n = k.heap.classes.size + 2 ∨
      ∃ v vs, a = call (n + 1) v vs ∧ m.heap.initOf? v = some callee ∧ k.heap.classes = m.heap.classes := by
  cases a with
  | eval frame e => exact .inl (call_of_mem_exprParts hq)
  | call i v vs =>
    cases i with
    | zero => cases hq
    | succ i =>
      obtain ⟨rfl, hinit⟩ := call_of_mem_callParts hq
      exact .inr ⟨v, vs, rfl, hinit⟩
  | run frame s =>
    cases s with
    | leave value => cases value <;> simp [parts, stmtParts] at hq
    | _ => simp [parts, stmtParts, Run.mem_andThen] at hq
  | invoke f args =>
    replace hq : _ ∈ bodyPart limit f args m := hq
    unfold bodyPart at hq
    split at hq
    · cases hq
    · dsimp only at hq
      split at hq
      · cases hq
      · cases List.mem_singleton.1 hq
  | assign frame v target => cases target <;> simp [parts] at hq
  | define => cases List.mem_singleton.1 hq
  | evalAll frame es => cases es <;> simp [parts, Run.mem_andThen] at hq
  | basesOf frame name es =>
    cases es with
    | nil => cases hq
    | cons e es =>
      rcases List.mem_cons.1 hq with hq | hq
      · cases hq
      obtain ⟨v, m₁, -, hq⟩ := Run.mem_andThen.1 hq
      split at hq
      · cases List.mem_singleton.1 hq
      · cases hq
  | runAll frame ss =>
    cases ss with
    | nil => cases hq
    | cons s ss =>
      rcases List.mem_cons.1 hq with hq | hq
      · cases hq
      obtain ⟨flow, m₁, -, hq⟩ := Run.mem_andThen.1 hq
      split at hq
      · cases List.mem_singleton.1 hq
      · cases hq

/-- Where such an activity has a call as its part, this is such an activity too, or it is made of a value that is
called without end. -/
theorem FollowsAll.call_of_part {n : Nat} {callee : Value} {args : List Value} {k : Machine} (hp : FollowsAll p)
    (hq : ⟨call n callee args, k⟩ ∈ p.activity.parts limit p.machine) :
    k.heap.initAfter? n callee = none ∨ n = k.heap.classes.size + 2 ∧ k.heap.Endless callee := by
  obtain ⟨a, m⟩ := p
  rcases call_of_mem_parts hq with rfl | ⟨v, vs, rfl, hinit, hclasses⟩
  · by_cases he : k.heap.Endless callee
    · exact .inr ⟨rfl, he⟩
    · exact .inl (Heap.initAfter?_of_not_endless he (by omega))
  · -- the chain is one link shorter, and no class has changed
    have hnone : m.heap.initAfter? (n + 1) v = none := hp
    rw [Heap.initAfter?_succ hinit, ← Heap.initAfter?_congr hclasses] at hnone
    exact .inl hnone

/-- An activity of this kind has no end only if it comes to a call that has none. By induction over what happens:
what has no end has a part that has none. -/
theorem FollowsAll.callsEndless (hp : FollowsAll p)
    (hno : Run.HasNoEnd (p.activity.ending limit p.machine) h) : CallsEndless limit p h := by
  refine induct limit (P := fun p => FollowsAll p → Run.HasNoEnd (p.activity.ending limit p.machine) h →
    CallsEndless limit p h) ?_ p hp hno
  intro p ih hp hno
  have hgiven : ¬ p.activity.IsGivenUp := by
    obtain ⟨a, m⟩ := p
    intro hg
    cases a with
    | call n => cases n <;> first | cases hp | exact hg
    | _ => exact hg
  obtain ⟨q, hq, hno⟩ := (hasNoEnd_iff hgiven p.machine).1 hno
  obtain ⟨a, k⟩ := q
  cases a with
  | call n callee args =>
    rcases hp.call_of_part hq with hf | ⟨rfl, he⟩
    · exact (ih _ hq hf hno).of_part hq
    · exact (callsEndless_of_endless he hno).of_part hq
  | _ => exact (ih _ hq trivial hno).of_part hq

theorem callActivity_callsEndless {callee : Value} {args : List Value}
    (hno : Run.HasNoEnd ((Run.callActivity m callee args).ending limit m) h) :
    CallsEndless limit ⟨Run.callActivity m callee args, m⟩ h := by
  by_cases he : m.heap.Endless callee
  · exact callsEndless_of_endless he hno
  · exact FollowsAll.callsEndless (Heap.initAfter?_of_not_endless he (by omega)) hno

end Activity

/-! ## Runs -/

namespace Run

variable {α : Type} {limit : Nat}

/-- The run comes to an end, with a value or a failure, if there is no heap of the kind given; and if it comes to
none, the heap that it is left with is of that kind. -/
def EndsUnless (endless : Heap → Prop) (r : EStateM.Result (Halt RunError) Machine α) : Prop :=
  match r with
  | .ok _ _ | .error (.failure _) _ => ∀ h, ¬ endless h
  | .error .divergence m => endless m.heap

/-- A run that has no end where an activity has none has an end unless the activity comes to a call without end. -/
theorem endsUnless_callsEndless {r : EStateM.Result (Halt RunError) Machine α} {root : Moment}
    (hr : ∀ h, HasNoEnd r h ↔ HasNoEnd (root.activity.ending limit root.machine) h)
    (hroot : ∀ h, HasNoEnd (root.activity.ending limit root.machine) h → Activity.CallsEndless limit root h) :
    EndsUnless (Activity.CallsEndless limit root) r := by
  have hends : (∀ h, ¬ HasNoEnd r h) → ∀ h, ¬ Activity.CallsEndless limit root h := by
    intro hno h hc
    obtain ⟨h', hh⟩ := hc.hasNoEnd
    exact hno h' ((hr h').2 hh)
  rcases r with ⟨a, m⟩ | ⟨e | _, m⟩
  · exact hends fun h => not_hasNoEnd_ok
  · exact hends fun h => not_hasNoEnd_failure
  · exact hroot _ ((hr _).1 ⟨m, rfl, rfl⟩)

end Run

/-- A unit has no end where its statements have none. -/
theorem CodeUnit.run_hasNoEnd_iff (limit : Nat) (u : CodeUnit) (globals : ScopeRef) (module : Name) (m : Machine)
    (h : Heap) : Run.HasNoEnd (u.run limit globals module m) h ↔
      Run.HasNoEnd ((Activity.runAll ⟨globals, module, .module⟩ u.body).ending limit m) h := by
  show _ ↔ Run.HasNoEnd (Run.ending (Stmt.runAll (Run.call limit) ⟨globals, module, .module⟩ u.body m)) h
  rw [CodeUnit.run, Run.hasNoEnd_ending]
  cases hr : Stmt.runAll (Run.call limit) ⟨globals, module, .module⟩ u.body m with
  | error e k => rw [bind_of_error hr]; simp
  | ok flow k =>
    rw [bind_of_ok hr]
    cases flow with
    | next frame => exact iff_of_false Run.not_hasNoEnd_ok Run.not_hasNoEnd_ok
    | leave v => exact iff_of_false Run.not_hasNoEnd_failure Run.not_hasNoEnd_ok

/-- Running a unit and calling any value come to an end, with a value or a failure, under every limit and from every
machine, exactly if they do not come to call a value that is called without end. If they do, they make nothing but
instances from there on. Such a call ends under no limit indeed, however many classes it may follow. -/
theorem Run.ends_unless_endless (limit : Nat) (m : Machine) :
    (∀ (u : CodeUnit) (globals : ScopeRef) (module : Name),
      EndsUnless (Activity.CallsEndless limit ⟨.runAll ⟨globals, module, .module⟩ u.body, m⟩)
        (u.run limit globals module m)) ∧
    (∀ (callee : Value) (args : List Value),
      EndsUnless (Activity.CallsEndless limit ⟨callActivity m callee args, m⟩) (call limit callee args m)) ∧
    ∀ (callee : Value) (args : List Value), m.heap.Endless callee →
      ∀ n, ∃ k, callWithin (invoke limit) n callee args m = .error .divergence { m with heap := k } ∧
        m.heap.OnlyInstances k :=
  ⟨fun u globals module => endsUnless_callsEndless (u.run_hasNoEnd_iff limit globals module m)
      fun _ hno => Activity.FollowsAll.callsEndless trivial hno,
    fun _ _ => endsUnless_callsEndless (fun _ => hasNoEnd_ending.symm)
      fun _ hno => Activity.callActivity_callsEndless hno,
    fun callee args he n => callWithin_endless _ n callee args m he⟩

namespace Sample

/-- `class C {}` and `C.init = C`. -/
def selfInit : CodeUnit := ⟨"m", [.classDef "C" [] [] none .dummy,
  .assign (.attr (.ident "C" .dummy) "init" .dummy) (.ident "C" .dummy) .dummy]⟩

/-- The machine on which the unit has run in a namespace of its own. -/
def selfInitMachine : Machine :=
  Run.final (selfInit.run 1000 Heap.empty.newScope.1 "m" ⟨Heap.empty.newScope.2, 0⟩)

end Sample

theorem Run.ends_unless_endless_selfInit :
    (Sample.selfInitMachine.heap.scope Heap.empty.newScope.1).get? "C" = some (.type ⟨0⟩) ∧
      Sample.selfInitMachine.heap.Endless (.type ⟨0⟩) ∧
      ∀ n, ∃ k, callWithin (invoke 1000) n (.type ⟨0⟩) [] Sample.selfInitMachine =
        .error .divergence { Sample.selfInitMachine with heap := k } ∧
        Sample.selfInitMachine.heap.OnlyInstances k := by
  have he : Sample.selfInitMachine.heap.Endless (.type ⟨0⟩) := by decide +kernel
  exact ⟨by decide +kernel, he, (ends_unless_endless 1000 Sample.selfInitMachine).2.2 _ [] he⟩

end LivePatch
