/-
The limit on the depth. Code cannot ask how deep it runs or what the limit is, and no code goes on after a
call that was refused at the limit. So a run under one limit is the run under any larger one, step by step
and to the last object on the heap, unless it is cut off at the smaller limit.

However a run ends, it ends at the depth where it begins. This comes first, since the limit leaves the same
number of calls to two runs only as long as these are at the same depth.
-/
import LivePatch.Proofs.Machine.Congruence
import LivePatch.Proofs.Machine.Ending
import LivePatch.Proofs.Machine.Law

namespace LivePatch

namespace Run

variable {α β : Type} {limit limit' d : Nat}

/-! ## Depths -/

/-- The run ends at the depth that it begins at. -/
def Level (x : Run α) : Prop := ∀ m : Machine, (final (x m)).depth = m.depth

theorem Level.depth_eq {x : Run α} (hx : Level x) {m m' : Machine} {a : α} (h : x m = .ok a m') :
    m'.depth = m.depth := by
  have hlevel := hx m
  rw [h] at hlevel
  exact hlevel

theorem Plain.level {x : Run α} (hx : Plain x) : Level x := by
  intro m
  obtain ⟨h, ⟨a, ha⟩ | ⟨e, he⟩⟩ := hx m
  · rw [ha]; rfl
  · rw [he]; rfl

theorem Level.bind {x : Run α} {f : α → Run β} (hx : Level x) (hf : ∀ a, Level (f a)) : Level (x >>= f) := by
  intro m
  have h := hx m
  cases hr : x m with
  | ok a m' =>
    rw [bind_of_ok hr, hf a m']
    exact hx.depth_eq hr
  | error e m' =>
    rw [hr] at h
    rw [bind_of_error hr]
    exact h

/-- What is counted up for a part is counted down after it. -/
theorem Level.deeper {x : Run α} (hx : Level x) : Level (deeper x) := by
  intro m
  have h := hx { m with depth := m.depth + 1 }
  unfold Run.deeper
  cases hr : x { m with depth := m.depth + 1 } <;> rw [hr] at h <;> exact congrArg (· - 1) h

theorem level_congruence : Congruence (fun x _ => Level x) := ⟨Plain.level, Level.bind⟩

theorem callBy_level {invoke : Invoker} (hi : ∀ f args, Level (invoke f args)) (callee : Value)
    (args : List Value) : Level (callBy invoke callee args) :=
  callBy_related (R := fun x _ => Level x) (j := invoke) level_congruence (fun _ => rfl) hi callee args

theorem runAll_level {call : Caller} (hcall : ∀ f args, Level (call f args)) (ss : List Stmt) (frame : Frame) :
    Level (Stmt.runAll call frame ss) :=
  @Stmt.runAll_related (fun x _ => Level x) call call level_congruence hcall ss frame

theorem invokeWithin_level (limit : Nat) : ∀ n f args, Level (invokeWithin limit n f args)
  | 0, _, _ => fun _ => rfl
  | n + 1, f, args => by
    have hdepth : Level depth := fun _ => rfl
    rw [invokeWithin]
    refine hdepth.bind fun d => ?_
    split
    · exact (plain_fail _).level
    · refine (plain_read _).level.bind fun o => ?_
      split
      · exact (plain_fail _).level
      · refine (runAll_level (callBy_level (invokeWithin_level limit n)) _ _).deeper.bind fun flow => ?_
        cases flow <;> exact (plain_pure _).level

theorem invoke_level (limit : Nat) (f : FunctionRef) (args : List Value) : Level (invoke limit f args) :=
  fun m => invokeWithin_level limit (limit - m.depth + 1) f args m

theorem call_level (limit : Nat) (callee : Value) (args : List Value) : Level (call limit callee args) :=
  callBy_level (invoke_level limit) callee args

end Run

theorem CodeUnit.run_level (limit : Nat) (u : CodeUnit) (globals : ScopeRef) (module : Name) :
    Run.Level (u.run limit globals module) := by
  refine (Run.runAll_level (Run.call_level limit) u.body _).bind fun flow => ?_
  cases flow with
  | next frame => exact (Run.plain_pure _).level
  | leave v => exact (Run.plain_fail _).level

namespace Run

variable {α β : Type} {limit limit' d : Nat}

/-! ## Two limits -/

/-- The run has failed at the limit. -/
def CutOff (limit : Nat) (r : EStateM.Result (Halt RunError) Machine α) : Prop :=
  ∃ m, r = .error (.failure (.recursionLimit limit)) m

/-- The first result is that of a run which is cut off at the limit, or it is the second one. -/
def UpTo (limit : Nat) (r s : EStateM.Result (Halt RunError) Machine α) : Prop := CutOff limit r ∨ r = s

namespace UpTo

/-- What is cut off stays so, whatever would follow. -/
theorem bind {x y : Run α} {f g : α → Run β} {m : Machine} (hxy : UpTo limit (x m) (y m))
    (hf : ∀ a m', x m = .ok a m' → UpTo limit (f a m') (g a m')) :
    UpTo limit ((x >>= f) m) ((y >>= g) m) := by
  rcases hxy with ⟨k, hk⟩ | he
  · exact .inl ⟨k, bind_of_error hk f⟩
  · cases hr : x m with
    | ok a m' =>
      rw [bind_of_ok hr, bind_of_ok (he.symm.trans hr)]
      exact hf a m' hr
    | error e m' =>
      rw [bind_of_error hr, bind_of_error (he.symm.trans hr)]
      exact .inr rfl

theorem deeper {x y : Run α} {m : Machine}
    (h : UpTo limit (x { m with depth := m.depth + 1 }) (y { m with depth := m.depth + 1 })) :
    UpTo limit (Run.deeper x m) (Run.deeper y m) := by
  unfold Run.deeper
  rcases h with ⟨k, hk⟩ | he
  · rw [hk]
    exact .inl ⟨_, rfl⟩
  · rw [he]
    exact .inr rfl

end UpTo

/-- Runs that end at their depth, the first of which, begun at the depth `d`, is cut off or does what the second
does. -/
def LevelUpTo (limit d : Nat) (x y : Run α) : Prop :=
  Level x ∧ ∀ m : Machine, m.depth = d → UpTo limit (x m) (y m)

theorem levelUpTo_congruence (limit d : Nat) : Congruence (LevelUpTo limit d) where
  plain hx := ⟨hx.level, fun _ _ => .inr rfl⟩
  bind {_ _ x _ f _} hx hf := by
    refine ⟨hx.1.bind fun a => (hf a).1, fun m hm => ?_⟩
    -- the first part comes back to the depth it started at
    exact (hx.2 m hm).bind fun a m' hr => (hf a).2 m' ((hx.1.depth_eq hr).trans hm)

/-! ## Calls -/

theorem callBy_upTo {invoke invoke' : Invoker}
    (hi : ∀ f args, LevelUpTo limit d (invoke f args) (invoke' f args)) (callee : Value) (args : List Value) :
    LevelUpTo limit d (callBy invoke callee args) (callBy invoke' callee args) :=
  callBy_related (levelUpTo_congruence limit d) ⟨fun _ => rfl, fun _ _ => .inr rfl⟩ hi callee args

theorem runAll_upTo {call call' : Caller} (hc : ∀ f args, LevelUpTo limit d (call f args) (call' f args))
    (ss : List Stmt) (frame : Frame) :
    LevelUpTo limit d (Stmt.runAll call frame ss) (Stmt.runAll call' frame ss) :=
  @Stmt.runAll_related (LevelUpTo limit d) call call' (levelUpTo_congruence limit d) hc ss frame

/-- By induction on the calls that may be nested: what is within the smaller limit is within the larger one. -/
theorem invokeWithin_upTo (hl : limit ≤ limit') : ∀ (n n' d : Nat), limit - d < n → limit' - d < n' →
    ∀ f args, LevelUpTo limit d (invokeWithin limit n f args) (invokeWithin limit' n' f args)
  | 0, _, _, hn, _, _, _ => absurd hn (Nat.not_lt_zero _)
  | _ + 1, 0, _, _, hn, _, _ => absurd hn (Nat.not_lt_zero _)
  | n + 1, n' + 1, d, hn, hn', f, args => by
    refine ⟨invokeWithin_level limit _ f args, fun m hm => ?_⟩
    have hdepth : depth m = .ok d m := by rw [← hm]; rfl
    rw [invokeWithin, invokeWithin, bind_of_ok hdepth, bind_of_ok hdepth]
    by_cases hd : limit ≤ d
    · rw [if_pos hd]
      exact .inl ⟨m, rfl⟩
    · rw [if_neg hd, if_neg (by omega)]
      refine UpTo.bind (.inr rfl) fun o m₁ ho => ?_
      cases ho
      cases bindArguments _ _ _ args with
      | error e => exact .inr rfl
      | ok locals =>
        -- the body runs one level deeper
        have hcall := callBy_upTo (invokeWithin_upTo hl n n' (d + 1) (by omega) (by omega))
        have hbody := (runAll_upTo hcall (m.heap.function f).state.code.body
          ⟨(m.heap.function f).globals, (m.heap.function f).module, .function locals⟩).2
            { m with depth := m.depth + 1 } (congrArg (· + 1) hm)
        exact UpTo.bind (UpTo.deeper hbody) fun _ _ _ => .inr rfl

theorem call_upTo (hl : limit ≤ limit') (d : Nat) (callee : Value) (args : List Value) :
    LevelUpTo limit d (call limit callee args) (call limit' callee args) := by
  refine callBy_upTo (fun f vs => ⟨invoke_level limit f vs, fun m hm => ?_⟩) callee args
  have hdepth : depth m = .ok d m := by rw [← hm]; rfl
  unfold invoke
  rw [bind_of_ok hdepth, bind_of_ok hdepth]
  exact (invokeWithin_upTo hl _ _ d (Nat.lt_succ_self _) (Nat.lt_succ_self _) f vs).2 m hm

end Run

theorem CodeUnit.run_upTo {limit limit' : Nat} (hl : limit ≤ limit') (u : CodeUnit) (globals : ScopeRef)
    (module : Name) (m : Machine) :
    Run.UpTo limit (u.run limit globals module m) (u.run limit' globals module m) := by
  have hbody := (Run.runAll_upTo (Run.call_upTo hl m.depth) u.body ⟨globals, module, .module⟩).2 m rfl
  exact Run.UpTo.bind hbody fun _ _ _ => .inr rfl

/-- A unit and a call that do not fail at the limit end under every larger limit as they end under this one:
with the same value or the same error, on the same heap and at the same depth. So the only thing that a
program can see of the limit is that it fails at it. -/
theorem Run.limit_unseen {limit limit' : Nat} (hl : limit ≤ limit') (m : Machine) :
    (∀ (u : CodeUnit) (globals : ScopeRef) (module : Name), ¬ CutOff limit (u.run limit globals module m) →
      u.run limit' globals module m = u.run limit globals module m) ∧
    ∀ (callee : Value) (args : List Value), ¬ CutOff limit (call limit callee args m) →
      call limit' callee args m = call limit callee args m :=
  ⟨fun u globals module hno => ((u.run_upTo hl globals module m).resolve_left hno).symm,
    fun callee args hno => (((call_upTo hl m.depth callee args).2 m rfl).resolve_left hno).symm⟩

namespace Sample

/-- A function that calls another one, and a call of it. -/
def nested : CodeUnit := ⟨"m", [
  .function "f" [] [.leave (some (.int 1 .dummy)) .dummy] none .dummy,
  .function "g" [] [.leave (some (.call (.ident "f" .dummy) [] .dummy)) .dummy] none .dummy,
  .expr (.call (.ident "g" .dummy) [] .dummy)]⟩

def nestedStart : Machine := ⟨Heap.empty.newScope.2, 0⟩

end Sample

/-- Two calls within one another are one too many for a limit of one; a limit of two and one of a thousand
make no difference. -/
theorem Run.limit_unseen_nested :
    CutOff 1 (Sample.nested.run 1 Heap.empty.newScope.1 "m" Sample.nestedStart) ∧
      ¬ CutOff 2 (Sample.nested.run 2 Heap.empty.newScope.1 "m" Sample.nestedStart) ∧
      Sample.nested.run 1000 Heap.empty.newScope.1 "m" Sample.nestedStart =
        Sample.nested.run 2 Heap.empty.newScope.1 "m" Sample.nestedStart := by
  have hok := eq_ok_final (r := Sample.nested.run 2 Heap.empty.newScope.1 "m" Sample.nestedStart) (a := ())
    (by decide +kernel)
  have hno : ¬ CutOff 2 (Sample.nested.run 2 Heap.empty.newScope.1 "m" Sample.nestedStart) := by
    rintro ⟨k, hk⟩
    cases hok.symm.trans hk
  exact ⟨⟨_, rfl⟩, hno, (limit_unseen (by decide) Sample.nestedStart).1 _ _ _ hno⟩

end LivePatch
