/-
An activity is the doing of its parts. From the machine that it begins on, its parts are done one after the
other, and in between, and when they are done, nothing is left to do that brings code to the heap, unless the
activity is the definition of a function. The parts of a body are done one call deeper, and all other parts at
the depth of the whole. So there is an end to going from an activity to its parts, and what is true of every
activity of whose parts it is true is true of all that happens in a run.
-/
import LivePatch.Proofs.Machine.Activity
import LivePatch.Proofs.Machine.Limit
import LivePatch.Proofs.Machine.Steady

namespace LivePatch

namespace Run

variable {α : Type} {limit d : Nat}

/-! ## The body of a function -/

/-- Runs that end at their depth, and that do the same when they are begun at the depth `d`. -/
def LevelSame (d : Nat) (x y : Run α) : Prop := Level x ∧ ∀ m : Machine, m.depth = d → x m = y m

theorem levelSame_congruence (d : Nat) : Congruence (LevelSame d) where
  plain hx := ⟨hx.level, fun _ _ => rfl⟩
  bind {_ _ x y f g} hx hf := by
    refine ⟨hx.1.bind fun a => (hf a).1, fun m hm => ?_⟩
    have he := hx.2 m hm
    cases hr : x m with
    | ok a m' =>
      rw [bind_of_ok hr, bind_of_ok (he.symm.trans hr)]
      exact (hf a).2 m' ((hx.1.depth_eq hr).trans hm)
    | error e m' => rw [bind_of_error hr, bind_of_error (he.symm.trans hr)]

/-- A call that is given up is given up at its depth. -/
theorem levelSame_divergence (d : Nat) : LevelSame d (throw .divergence : Run Value) (throw .divergence) :=
  ⟨fun _ => rfl, fun _ _ => rfl⟩

/-- Inside a body, what is left of the limit is what the limit itself leaves there. -/
theorem runAll_body (hd : d < limit) (ss : List Stmt) (frame : Frame) {m : Machine} (hm : m.depth = d + 1) :
    Stmt.runAll (callBy (invokeWithin limit (limit - d))) frame ss m = Stmt.runAll (call limit) frame ss m := by
  have hsame : ∀ f args, LevelSame (d + 1) (invokeWithin limit (limit - d) f args) (invoke limit f args) := by
    refine fun f args => ⟨invokeWithin_level limit _ f args, fun k hk => ?_⟩
    show _ = invokeWithin limit (limit - k.depth + 1) f args k
    rw [hk, show limit - (d + 1) + 1 = limit - d by omega]
  have hcall := callBy_related (levelSame_congruence (d + 1)) (levelSame_divergence (d + 1)) hsame
  exact (@Stmt.runAll_related (LevelSame (d + 1)) _ _ (levelSame_congruence (d + 1)) hcall ss frame).2 m hm

/-- Runs the body of a function with the bindings that it starts with. -/
def runBody (limit : Nat) (o : FunctionObject) (locals : Bindings Value) : Run Value := do
  match ← deeper (Stmt.runAll (call limit) ⟨o.globals, o.module, .function locals⟩ o.state.code.body) with
  | .leave v => return v
  | .next _ => return .none

section

variable {f : FunctionRef} {args : List Value} {m : Machine}

theorem invoke_at_limit (hd : limit ≤ m.depth) :
    invoke limit f args m = .error (.failure (.recursionLimit limit)) m := by
  show invokeWithin limit (limit - m.depth + 1) f args m = _
  have hdepth : depth m = .ok m.depth m := rfl
  rw [invokeWithin, bind_of_ok hdepth, if_pos hd]
  rfl

/-- Arguments that cannot be bound end the call before the body begins. -/
theorem invoke_refused (hd : m.depth < limit) {e : RunError}
    (hl : bindArguments (m.heap.function f).name (m.heap.function f).state.code.params
      (m.heap.function f).state.defaults args = .error e) :
    invoke limit f args m = .error (.failure e) m := by
  show invokeWithin limit (limit - m.depth + 1) f args m = _
  have hdepth : depth m = .ok m.depth m := rfl
  have hread : read (·.function f) m = .ok (m.heap.function f) m := rfl
  rw [invokeWithin, bind_of_ok hdepth, if_neg (Nat.not_le.2 hd), bind_of_ok hread, hl]
  rfl

/-- Arguments that can be bound make the call the run of the body. -/
theorem invoke_entered (hd : m.depth < limit) {locals : Bindings Value}
    (hl : bindArguments (m.heap.function f).name (m.heap.function f).state.code.params
      (m.heap.function f).state.defaults args = .ok locals) :
    invoke limit f args m = runBody limit (m.heap.function f) locals m := by
  have hbody := runAll_body hd (m.heap.function f).state.code.body
    ⟨(m.heap.function f).globals, (m.heap.function f).module, .function locals⟩
    (m := { m with depth := m.depth + 1 }) rfl
  show invokeWithin limit (limit - m.depth + 1) f args m = _
  have hdepth : depth m = .ok m.depth m := rfl
  have hread : read (·.function f) m = .ok (m.heap.function f) m := rfl
  rw [invokeWithin, bind_of_ok hdepth, if_neg (Nat.not_le.2 hd), bind_of_ok hread, hl]
  change EStateM.bind (deeper _) _ m = EStateM.bind (deeper _) _ m
  unfold EStateM.bind deeper
  exact hbody ▸ rfl

end

/-- What a call of a function comes to when its body has come to an end. The value is what was returned, or none,
and one call less is being run. -/
def returned : EStateM.Result (Halt RunError) Machine Flow → EStateM.Result (Halt RunError) Machine Value
  | .ok (.leave v) m => .ok v { m with depth := m.depth - 1 }
  | .ok (.next _) m => .ok .none { m with depth := m.depth - 1 }
  | .error e m => .error e { m with depth := m.depth - 1 }

theorem runBody_eq (limit : Nat) (o : FunctionObject) (locals : Bindings Value) (m : Machine) :
    runBody limit o locals m =
      returned (Stmt.runAll (call limit) ⟨o.globals, o.module, .function locals⟩ o.state.code.body
        { m with depth := m.depth + 1 }) := by
  change EStateM.bind (deeper _) _ m = _
  unfold EStateM.bind deeper
  cases Stmt.runAll (call limit) _ o.state.code.body { m with depth := m.depth + 1 } with
  | ok flow k => cases flow <;> rfl
  | error e k => rfl

end Run

namespace Activity

variable {limit d : Nat} {m k : Machine}

/-- What relates the running of function bodies and is kept by composing runs relates the endings of activities. -/
theorem endsBy_related {R : ∀ {α : Type}, Run α → Run α → Prop} (C : Run.Congruence @R)
    (hstop : R (throw .divergence : Run Value) (throw .divergence))
    {i j : Run.Invoker} (hi : ∀ f args, R (i f args) (j f args))
    {P : EStateM.Result (Halt RunError) Machine Unit → EStateM.Result (Halt RunError) Machine Unit → Prop}
    (hP : ∀ {α : Type} {x y : Run α}, R x y → P (Run.ending (x m)) (Run.ending (y m))) (a : Activity) :
    P (a.endsBy i m) (a.endsBy j m) := by
  have hcall := Run.callBy_related C hstop hi
  cases a with
  | eval frame e => exact hP (Expr.eval_related C hcall frame e)
  | evalAll frame es => exact hP (Expr.evalAll_related C hcall frame es)
  | basesOf frame name es => exact hP (Run.basesOf_related C hcall frame name es)
  | define frame name params body doc => exact hP (Run.defineFunction_related C hcall frame name params body doc)
  | assign frame v target => exact hP (Run.assign_related C hcall frame v target)
  | run frame s => exact hP (Stmt.run_related C hcall s frame)
  | runAll frame ss => exact hP (Stmt.runAll_related C hcall ss frame)
  | call n callee args => exact hP (Run.callWithin_related C hstop hi n callee args)
  | invoke f args => exact hP (hi f args)

/-- An activity ends at the depth that it begins at. -/
theorem final_depth (limit : Nat) (a : Activity) (m : Machine) : (a.final limit m).depth = m.depth := by
  have hi := Run.invoke_level limit
  rw [← final_ending]
  refine endsBy_related (R := fun x _ => Run.Level x) (P := fun r _ => (Run.final r).depth = m.depth)
    (j := Run.invoke limit) Run.level_congruence (fun _ => rfl) hi (fun {_ x _} hx => ?_) a
  rw [Run.final_ending]
  exact hx m

/-- An activity ends alike for any two ways to run the bodies of functions that do the same at its depth. -/
theorem endsBy_same {invoke : Run.Invoker}
    (hi : ∀ f args (k : Machine), k.depth = m.depth → invoke f args k = Run.invoke limit f args k) (a : Activity) :
    a.endsBy invoke m = a.ending limit m := by
  have hsame : ∀ f args, Run.LevelSame m.depth (Run.invoke limit f args) (invoke f args) := fun f args =>
    ⟨Run.invoke_level limit f args, fun k hk => (hi f args k hk).symm⟩
  refine endsBy_related (R := Run.LevelSame m.depth) (P := fun r r' => r' = r) (Run.levelSame_congruence m.depth)
    (Run.levelSame_divergence m.depth) hsame (fun {_ x y} hxy => ?_) a
  rw [hxy.2 m rfl]

/-! ## One part after the other -/

/-- Doing these parts at the depth `d`, one after the other from the machine `m`, comes to the ending `r`. What is
done between them and after the last brings no code to the heap, and has an end unless it is given up. -/
inductive Done (limit d : Nat) (givenUp : Prop) : Machine → List Moment →
    EStateM.Result (Halt RunError) Machine Unit → Prop
  | last {m : Machine} {r : EStateM.Result (Halt RunError) Machine Unit}
      (hk : m.heap.SamePrograms (Run.final r).heap) (hr : ∀ k, r = .error .divergence k → givenUp) :
      Done limit d givenUp m [] r
  | part {m k : Machine} {r : EStateM.Result (Halt RunError) Machine Unit} {q : Moment} {qs : List Moment}
      (hd : q.machine.depth = d) (hq : m.heap.SamePrograms q.machine.heap)
      (hend : q.activity.ending limit q.machine = .ok () k) (hrest : Done limit d givenUp k qs r) :
      Done limit d givenUp m (q :: qs) r
  | stops {m k l : Machine} {q : Moment} {e : Halt RunError} (hd : q.machine.depth = d)
      (hq : m.heap.SamePrograms q.machine.heap) (hend : q.activity.ending limit q.machine = .error e k)
      (hl : l.heap = k.heap) : Done limit d givenUp m [q] (.error e l)

section

variable {givenUp : Prop}

namespace Done

variable {α β : Type} {x : Run α} {f : α → Run β} {a : Activity}

theorem steady (hx : Run.Steady x) (m : Machine) : Done limit d givenUp m [] (Run.ending (x m)) := by
  refine .last ?_ fun k hr => ?_
  · rw [Run.final_ending]
    exact hx.programs m
  · obtain ⟨h, ⟨a, ha⟩ | ⟨e, he⟩⟩ := hx.plain m
    · rw [ha] at hr; cases hr
    · rw [he] at hr; cases hr

/-- A run whose first half is an activity, with the parts that the other half has in turn. -/
theorem bind (hd : m.depth = d) (ha : a.ending limit m = Run.ending (x m)) {g : α → Machine → List Moment}
    (hf : ∀ v m₁, x m = .ok v m₁ → m₁.depth = d → Done limit d givenUp m₁ (g v m₁) (Run.ending (f v m₁))) :
    Done limit d givenUp m (⟨a, m⟩ :: Run.andThen (x m) g) (Run.ending ((x >>= f) m)) := by
  have hlevel := (final_depth limit a m).trans hd
  rw [← final_ending, ha] at hlevel
  cases hr : x m with
  | ok v m₁ =>
    rw [hr] at ha hlevel
    rw [bind_of_ok hr]
    exact .part hd (.refl _) ha (hf v m₁ hr hlevel)
  | error e m₁ =>
    rw [hr] at ha
    rw [bind_of_error hr]
    exact .stops hd (.refl _) ha rfl

/-- A run whose first half is an activity, and whose other half brings no code to the heap. -/
theorem single (hd : m.depth = d) (ha : a.ending limit m = Run.ending (x m)) (hf : ∀ v, Run.Steady (f v)) :
    Done limit d givenUp m [⟨a, m⟩] (Run.ending ((x >>= f) m)) := by
  have h : Done limit d givenUp m _ _ := bind (g := fun _ _ => []) hd ha fun v m₁ _ _ => .steady (hf v) m₁
  cases hr : x m <;> rw [hr] at h <;> exact h

/-- A run that is an activity from its beginning to its end. -/
theorem whole (hd : m.depth = d) : Done limit d givenUp m [⟨a, m⟩] (a.ending limit m) := by
  cases hr : a.ending limit m with
  | ok u k => exact .part hd (.refl _) hr (.last (.refl _) nofun)
  | error e k => exact .stops hd (.refl _) hr rfl

/-- What brings no code to the heap may come before the parts. -/
theorem after {qs : List Moment} {r : EStateM.Result (Halt RunError) Machine Unit}
    (hk : m.heap.SamePrograms k.heap) (hdone : Done limit d givenUp k qs r) : Done limit d givenUp m qs r := by
  cases hdone with
  | last hk' hr => exact .last (hk.trans hk') hr
  | part hd hq hend hrest => exact .part hd (hk.trans hq) hend hrest
  | stops hd hq hend hl => exact .stops hd (hk.trans hq) hend hl

end Done

theorem exprParts_done (hd : m.depth = d) (frame : Frame) (e : Expr) :
    Done limit d givenUp m (exprParts limit frame m e) (Run.ending (e.eval (Run.call limit) frame m)) := by
  cases e with
  | int | str | bool | none =>
    simp only [Expr.eval]
    exact .steady (Run.steady_pure _) m
  | ident x =>
    simp only [Expr.eval]
    exact .steady (Run.steady_valueOfName frame x) m
  | attr object x =>
    simp only [Expr.eval]
    exact .single hd rfl fun v => Run.steady_getAttr v x
  | unary op operand =>
    simp only [Expr.eval]
    exact .single hd rfl fun v => Run.steady_operate _
  | call callee args =>
    simp only [Expr.eval]
    refine .bind hd rfl fun f m₁ _ h₁ => .bind h₁ rfl fun vs m₂ _ h₂ => ?_
    exact .whole h₂
  | binary op left right =>
    simp only [Expr.eval]
    refine .bind hd rfl fun v m₁ _ h₁ => ?_
    -- `and` and `or` may leave their right operand alone
    cases op with
    | and =>
      unfold rightPart
      dsimp only
      split
      · exact .whole h₁
      · exact .steady (Run.steady_pure v) m₁
    | or =>
      unfold rightPart
      dsimp only
      split
      · exact .steady (Run.steady_pure v) m₁
      · exact .whole h₁
    | _ => exact .single h₁ rfl fun w => Run.steady_operate _

theorem stmtParts_done (hd : m.depth = d) (frame : Frame) (s : Stmt) :
    Done limit d givenUp m (stmtParts limit frame m s) (Run.ending (s.run (Run.call limit) frame m)) := by
  cases s with
  | bind x value =>
    simp only [Stmt.run]
    exact .single hd rfl fun v => (Run.steady_bind frame x v).bind fun _ => Run.steady_pure _
  | assign target value =>
    simp only [Stmt.run]
    exact .bind hd rfl fun v m₁ _ h₁ => .single h₁ rfl fun _ => Run.steady_pure _
  | function x params body doc =>
    simp only [Stmt.run]
    exact .single hd rfl fun f => (Run.steady_bind frame x _).bind fun _ => Run.steady_pure _
  | classDef x bases body doc =>
    simp only [Stmt.run]
    refine .bind hd rfl fun cs m₁ _ h₁ => .single h₁ rfl fun flow => ?_
    cases flow with
    | leave v => exact Run.steady_fail _
    | next last =>
      exact (Run.steady_make fun _ => .of_functions rfl).bind fun c =>
        (Run.steady_bind frame x _).bind fun _ => Run.steady_pure _
  | leave value =>
    cases value with
    | none =>
      simp only [Stmt.run]
      split
      · exact .steady (Run.steady_pure _) m
      · exact .steady (Run.steady_fail _) m
    | some e =>
      simp only [Stmt.run, stmtParts]
      split
      · exact .single hd rfl fun v => Run.steady_pure _
      · exact .steady (Run.steady_fail _) m
  | raise value =>
    simp only [Stmt.run]
    exact .single hd rfl fun v => (Run.steady_read _).bind fun _ => Run.steady_fail _
  | branch cond whenTrue whenFalse =>
    simp only [Stmt.run]
    refine .bind hd rfl fun v m₁ _ h₁ => ?_
    cases v.isTruthy <;> exact .whole h₁
  | expr value =>
    simp only [Stmt.run]
    exact .single hd rfl fun _ => Run.steady_pure _

theorem callParts_done (hd : m.depth = d) (n : Nat) (callee : Value) (args : List Value) :
    Done limit d givenUp m (callParts n args m callee)
      (Run.ending (Run.callWithin (Run.invoke limit) (n + 1) callee args m)) := by
  cases callee with
  | builtin b => exact .steady (Run.steady_apply b args) m
  | function f => exact .whole hd
  | method r => exact .whole hd
  | type c =>
    rw [Run.callWithin_class]
    unfold callParts
    dsimp only
    have hmade : m.heap.SamePrograms (m.heap.newInstance c).2 := .of_functions rfl
    cases m.heap.lookup c "init" with
    | none =>
      refine Done.after (k := { m with heap := (m.heap.newInstance c).2 }) hmade ?_
      dsimp only
      split
      · exact .steady (Run.steady_pure _) _
      · exact .steady ((Run.steady_read _).bind fun _ => Run.steady_fail _) _
    | some v =>
      -- what is in the place of the initialiser is called after the instance is made
      cases v <;> exact Done.after (k := { m with heap := (m.heap.newInstance c).2 }) hmade
        (.single hd rfl fun _ => Run.steady_pure _)
  | _ => exact .steady ((Run.steady_read _).bind fun _ => Run.steady_fail _) m

theorem bodyPart_done (limit : Nat) (f : FunctionRef) (args : List Value) (m : Machine) :
    Done limit (m.depth + 1) givenUp m (bodyPart limit f args m) (Run.ending (Run.invoke limit f args m)) := by
  unfold bodyPart
  split
  · rename_i hle
    rw [Run.invoke_at_limit hle]
    exact .last (.refl _) nofun
  · rename_i hlt
    dsimp only
    cases hl : Run.bindArguments (m.heap.function f).name (m.heap.function f).state.code.params
        (m.heap.function f).state.defaults args with
    | error e =>
      rw [Run.invoke_refused (Nat.not_le.1 hlt) hl]
      exact .last (.refl _) nofun
    | ok locals =>
      rw [Run.invoke_entered (Nat.not_le.1 hlt) hl, Run.runBody_eq]
      dsimp only
      generalize hr : Stmt.runAll (Run.call limit) _ (m.heap.function f).state.code.body _ = r
      have hend := congrArg Run.ending hr
      cases r with
      | error e k => exact .stops rfl (.refl _) hend rfl
      | ok flow k => cases flow <;> exact .part rfl (.refl _) hend (.last (.refl _) nofun)

end

/-- Whether the activity is the definition of a function. -/
def IsDefinition : Activity → Prop
  | define .. => True
  | _ => False

/-- Whether the activity is a call that may follow no class any more, and is therefore given up. -/
def IsGivenUp : Activity → Prop
  | call 0 _ _ => True
  | _ => False

/-- The depth at which the parts of an activity are done. -/
def partDepth (d : Nat) : Activity → Nat
  | invoke .. => d + 1
  | _ => d

/-- The parts of an activity that defines no function come to where the activity ends. -/
theorem parts_done {a : Activity} (ha : ¬ a.IsDefinition) (m : Machine) :
    Done limit (a.partDepth m.depth) a.IsGivenUp m (a.parts limit m) (a.ending limit m) := by
  cases a with
  | eval frame e => exact exprParts_done rfl frame e
  | evalAll frame es =>
    show Done limit m.depth _ m _ (Run.ending (Expr.evalAll (Run.call limit) frame es m))
    cases es with
    | nil =>
      rw [Expr.evalAll]
      exact .steady (Run.steady_pure _) m
    | cons e es =>
      rw [Expr.evalAll]
      exact .bind rfl rfl fun v m₁ _ h₁ => .single h₁ rfl fun _ => Run.steady_pure _
  | basesOf frame name es =>
    show Done limit m.depth _ m _ (Run.ending (Run.basesOf (Run.call limit) frame name es m))
    cases es with
    | nil => exact .steady (Run.steady_pure _) m
    | cons e es =>
      rw [Run.basesOf]
      refine .bind rfl rfl fun v m₁ _ h₁ => ?_
      cases v with
      | type c => exact .single h₁ rfl fun _ => Run.steady_pure _
      | _ => exact .steady ((Run.steady_read _).bind fun _ => Run.steady_fail _) m₁
  | define frame name params body doc => exact absurd trivial ha
  | assign frame v target =>
    show Done limit m.depth _ m _ (Run.ending (Run.assign (Run.call limit) frame v target m))
    cases target with
    | ident x => exact .steady (Run.steady_bind frame x v) m
    | attr object x =>
      exact .single rfl rfl fun o => (Run.steady_setAttr o x v).bind fun _ => Run.steady_pure _
    | _ => exact .steady (Run.steady_pure _) m
  | run frame s => exact stmtParts_done rfl frame s
  | runAll frame ss =>
    show Done limit m.depth _ m _ (Run.ending (Stmt.runAll (Run.call limit) frame ss m))
    cases ss with
    | nil =>
      rw [Stmt.runAll]
      exact .steady (Run.steady_pure _) m
    | cons s ss =>
      rw [Stmt.runAll]
      refine .bind rfl rfl fun flow m₁ _ h₁ => ?_
      cases flow with
      | next frame' => exact .whole h₁
      | leave v => exact .steady (Run.steady_pure _) m₁
  | call n callee args =>
    cases n with
    | zero => exact .last (.refl _) fun _ _ => trivial
    | succ n => exact callParts_done rfl n callee args
  | invoke f args => exact bodyPart_done limit f args m

/-- What each part does to the heap is done from the beginning of the whole to the beginning of each part and
to the end. -/
theorem Done.advance {givenUp : Prop} {R : Heap → Heap → Prop}
    (hsame : ∀ {h k : Heap}, h.SamePrograms k → R h k) (htrans : ∀ {h k l : Heap}, R h k → R k l → R h l)
    {qs : List Moment} {r : EStateM.Result (Halt RunError) Machine Unit} (hdone : Done limit d givenUp m qs r)
    (hqs : ∀ q ∈ qs, R q.machine.heap (q.activity.final limit q.machine).heap) :
    (∀ q ∈ qs, R m.heap q.machine.heap) ∧ R m.heap (Run.final r).heap := by
  induction hdone with
  | last hk => exact ⟨fun _ hq => (nomatch hq), hsame hk⟩
  | @part m k r q qs hd hq hend _ ih =>
    obtain ⟨hrest, hfinal⟩ := ih fun p hp => hqs p (List.mem_cons_of_mem _ hp)
    have hpart := hqs q (List.mem_cons_self ..)
    rw [← final_ending, hend] at hpart
    refine ⟨fun p hp => ?_, htrans (hsame hq) (htrans hpart hfinal)⟩
    rcases List.mem_cons.1 hp with rfl | hp
    · exact hsame hq
    · exact htrans (hsame hq) (htrans hpart (hrest p hp))
  | @stops m k l q e hd hq hend hl =>
    have hpart := hqs q (List.mem_singleton_self q)
    rw [← final_ending, hend] at hpart
    refine ⟨fun p hp => ?_, ?_⟩
    · rw [List.mem_singleton.1 hp]
      exact hsame hq
    · show R m.heap l.heap
      rw [hl]
      exact htrans (hsame hq) hpart

/-- What happens in a part happens in the whole. -/
theorem Happens.trans {p q r : Moment} (hpq : Happens limit p q) (hqr : Happens limit q r) :
    Happens limit p r := by
  induction hqr with
  | start => exact hpq
  | part _ hq ih => exact ih.part hq

/-! ## Induction over what happens -/

theorem Done.depth_eq {givenUp : Prop} {qs : List Moment} {r : EStateM.Result (Halt RunError) Machine Unit}
    (h : Done limit d givenUp m qs r) : ∀ q ∈ qs, q.machine.depth = d := by
  induction h with
  | last => exact fun _ hq => nomatch hq
  | part hd _ _ _ ih =>
    intro q hq
    rcases List.mem_cons.1 hq with rfl | hq
    · exact hd
    · exact ih q hq
  | stops hd =>
    intro q hq
    rw [List.mem_singleton.1 hq]
    exact hd

theorem parts_depth {a : Activity} {q : Moment} (hq : q ∈ a.parts limit m) :
    q.machine.depth = a.partDepth m.depth := by
  by_cases ha : a.IsDefinition
  · cases a with
    | define => rw [List.mem_singleton.1 hq]; rfl
    | _ => exact ha.elim
  · exact (parts_done ha m).depth_eq q hq

/-- Trees come before calls, and calls before bodies. -/
def tier : Activity → Nat
  | call .. => 1
  | invoke .. => 0
  | _ => 2

/-- How much there is to an activity before one of another tier begins. -/
noncomputable def size : Activity → Nat
  | eval _ e => sizeOf e
  | evalAll _ es | basesOf _ _ es => sizeOf es
  | define _ _ params body _ => sizeOf params + sizeOf body
  | assign _ _ target => sizeOf target
  | run _ s => sizeOf s
  | runAll _ ss => sizeOf ss
  | call n _ _ => n
  | invoke _ _ => 0

/-- One activity is of a later tier, or of the same and smaller. -/
def Simpler (a b : Activity) : Prop := a.tier < b.tier ∨ a.tier = b.tier ∧ a.size < b.size

theorem sizeOf_defaults_le (params : List Param) : sizeOf (params.filterMap (·.default)) ≤ sizeOf params := by
  induction params with
  | nil => exact Nat.le_refl _
  | cons p params ih =>
    obtain ⟨name, default⟩ := p
    cases default with
    | none =>
      rw [List.filterMap_cons_none rfl]
      simp only [List.cons.sizeOf_spec]
      omega
    | some e =>
      have hcons : (⟨name, some e⟩ :: params : List Param).filterMap (·.default) =
          e :: params.filterMap (·.default) := rfl
      rw [hcons]
      simp only [List.cons.sizeOf_spec, Param.mk.sizeOf_spec, Option.some.sizeOf_spec]
      omega

theorem exprParts_simpler {frame : Frame} {e : Expr} {q : Moment} (hq : q ∈ exprParts limit frame m e) :
    q.activity.Simpler (.eval frame e) := by
  cases e with
  | int | str | bool | none | ident => cases hq
  | attr object x =>
    rw [List.mem_singleton.1 hq]
    exact .inr ⟨rfl, by simp only [size, Expr.attr.sizeOf_spec]; omega⟩
  | unary op operand =>
    rw [List.mem_singleton.1 hq]
    exact .inr ⟨rfl, by simp only [size, Expr.unary.sizeOf_spec]; omega⟩
  | call callee args =>
    rcases List.mem_cons.1 hq with rfl | hq
    · exact .inr ⟨rfl, by simp only [size, Expr.call.sizeOf_spec]; omega⟩
    obtain ⟨f, m₁, -, hq⟩ := Run.mem_andThen.1 hq
    rcases List.mem_cons.1 hq with rfl | hq
    · exact .inr ⟨rfl, by simp only [size, Expr.call.sizeOf_spec]; omega⟩
    obtain ⟨vs, m₂, -, hq⟩ := Run.mem_andThen.1 hq
    rw [List.mem_singleton.1 hq]
    exact .inl (Nat.lt_succ_self 1)
  | binary op left right =>
    rcases List.mem_cons.1 hq with rfl | hq
    · exact .inr ⟨rfl, by simp only [size, Expr.binary.sizeOf_spec]; omega⟩
    obtain ⟨v, m₁, -, hq⟩ := Run.mem_andThen.1 hq
    rw [eq_of_mem_rightPart hq]
    exact .inr ⟨rfl, by simp only [size, Expr.binary.sizeOf_spec]; omega⟩

theorem stmtParts_simpler {frame : Frame} {s : Stmt} {q : Moment} (hq : q ∈ stmtParts limit frame m s) :
    q.activity.Simpler (.run frame s) := by
  cases s with
  | bind x value =>
    rw [List.mem_singleton.1 hq]
    exact .inr ⟨rfl, by simp only [size, Stmt.bind.sizeOf_spec]; omega⟩
  | assign target value =>
    rcases List.mem_cons.1 hq with rfl | hq
    · exact .inr ⟨rfl, by simp only [size, Stmt.assign.sizeOf_spec]; omega⟩
    obtain ⟨v, m₁, -, hq⟩ := Run.mem_andThen.1 hq
    rw [List.mem_singleton.1 hq]
    exact .inr ⟨rfl, by simp only [size, Stmt.assign.sizeOf_spec]; omega⟩
  | function x params body doc =>
    rw [List.mem_singleton.1 hq]
    exact .inr ⟨rfl, by simp only [size, Stmt.function.sizeOf_spec]; omega⟩
  | classDef x bases body doc =>
    rcases List.mem_cons.1 hq with rfl | hq
    · exact .inr ⟨rfl, by simp only [size, Stmt.classDef.sizeOf_spec]; omega⟩
    obtain ⟨cs, m₁, -, hq⟩ := Run.mem_andThen.1 hq
    rw [List.mem_singleton.1 hq]
    exact .inr ⟨rfl, by simp only [size, Stmt.classDef.sizeOf_spec]; omega⟩
  | leave value =>
    cases value with
    | none => cases hq
    | some e =>
      simp only [stmtParts] at hq
      split at hq
      · rw [List.mem_singleton.1 hq]
        exact .inr ⟨rfl, by simp only [size, Stmt.leave.sizeOf_spec, Option.some.sizeOf_spec]; omega⟩
      · cases hq
  | raise value =>
    rw [List.mem_singleton.1 hq]
    exact .inr ⟨rfl, by simp only [size, Stmt.raise.sizeOf_spec]; omega⟩
  | branch cond whenTrue whenFalse =>
    rcases List.mem_cons.1 hq with rfl | hq
    · exact .inr ⟨rfl, by simp only [size, Stmt.branch.sizeOf_spec]; omega⟩
    obtain ⟨v, m₁, -, hq⟩ := Run.mem_andThen.1 hq
    rw [List.mem_singleton.1 hq]
    refine .inr ⟨rfl, ?_⟩
    cases v.isTruthy <;> simp only [size, Stmt.branch.sizeOf_spec, if_true, if_false, Bool.false_eq_true] <;> omega
  | expr value =>
    rw [List.mem_singleton.1 hq]
    exact .inr ⟨rfl, by simp only [size, Stmt.expr.sizeOf_spec]; omega⟩

theorem callParts_simpler {n : Nat} {callee : Value} {args : List Value} {q : Moment}
    (hq : q ∈ callParts n args m callee) : q.activity.Simpler (.call (n + 1) callee args) := by
  have hinvoke : ∀ f vs, (invoke f vs).Simpler (.call (n + 1) callee args) := fun _ _ => .inl Nat.one_pos
  cases callee with
  | function f => rw [List.mem_singleton.1 hq]; exact hinvoke _ _
  | method r => rw [List.mem_singleton.1 hq]; exact hinvoke _ _
  | type c =>
    unfold callParts at hq
    dsimp only at hq
    split at hq
    · rw [List.mem_singleton.1 hq]
      exact hinvoke _ _
    · rw [List.mem_singleton.1 hq]
      exact .inr ⟨rfl, Nat.lt_succ_self n⟩
    · cases hq
  | _ => cases hq

/-- A part of an activity, unless it is the body of a function, is simpler than the activity. -/
theorem parts_simpler {a : Activity} (ha : a.tier ≠ 0) {q : Moment} (hq : q ∈ a.parts limit m) :
    q.activity.Simpler a := by
  cases a with
  | eval frame e => exact exprParts_simpler hq
  | run frame s => exact stmtParts_simpler hq
  | invoke f args => exact absurd rfl ha
  | define frame name params body doc =>
    rw [List.mem_singleton.1 hq]
    have hbody : 0 < sizeOf body := by
      cases body <;> simp only [List.nil.sizeOf_spec, List.cons.sizeOf_spec] <;> omega
    have hparams := sizeOf_defaults_le params
    exact .inr ⟨rfl, by simp only [size]; omega⟩
  | call n callee args =>
    cases n with
    | zero => cases hq
    | succ n => exact callParts_simpler hq
  | assign frame v target =>
    cases target with
    | attr object x =>
      rw [List.mem_singleton.1 hq]
      exact .inr ⟨rfl, by simp only [size, Expr.attr.sizeOf_spec]; omega⟩
    | _ => cases hq
  | evalAll frame es =>
    cases es with
    | nil => cases hq
    | cons e es =>
      rcases List.mem_cons.1 hq with rfl | hq
      · exact .inr ⟨rfl, by simp only [size, List.cons.sizeOf_spec]; omega⟩
      obtain ⟨v, m₁, -, hq⟩ := Run.mem_andThen.1 hq
      rw [List.mem_singleton.1 hq]
      exact .inr ⟨rfl, by simp only [size, List.cons.sizeOf_spec]; omega⟩
  | basesOf frame name es =>
    cases es with
    | nil => cases hq
    | cons e es =>
      rcases List.mem_cons.1 hq with rfl | hq
      · exact .inr ⟨rfl, by simp only [size, List.cons.sizeOf_spec]; omega⟩
      obtain ⟨v, m₁, -, hq⟩ := Run.mem_andThen.1 hq
      split at hq
      · rw [List.mem_singleton.1 hq]
        exact .inr ⟨rfl, by simp only [size, List.cons.sizeOf_spec]; omega⟩
      · cases hq
  | runAll frame ss =>
    cases ss with
    | nil => cases hq
    | cons s ss =>
      rcases List.mem_cons.1 hq with rfl | hq
      · exact .inr ⟨rfl, by simp only [size, List.cons.sizeOf_spec]; omega⟩
      obtain ⟨flow, m₁, -, hq⟩ := Run.mem_andThen.1 hq
      split at hq
      · rw [List.mem_singleton.1 hq]
        exact .inr ⟨rfl, by simp only [size, List.cons.sizeOf_spec]; omega⟩
      · cases hq

theorem bodyPart_below {f : FunctionRef} {args : List Value} {q : Moment} (hq : q ∈ bodyPart limit f args m) :
    m.depth < limit ∧ q.machine.depth = m.depth + 1 := by
  unfold bodyPart at hq
  split at hq
  · cases hq
  · rename_i hle
    refine ⟨Nat.not_le.1 hle, ?_⟩
    dsimp only at hq
    split at hq
    · cases hq
    · rw [List.mem_singleton.1 hq]

/-- Induction over what happens: what holds of an activity when it holds of its parts holds of every activity.
The induction is on what is left of the limit, and at one depth on how simple the activity is. -/
theorem induct (limit : Nat) {P : Moment → Prop}
    (step : ∀ p : Moment, (∀ q ∈ p.activity.parts limit p.machine, P q) → P p) (p : Moment) : P p := by
  refine step p fun q hq => ?_
  have hdepth := parts_depth hq
  have hless : limit - q.machine.depth < limit - p.machine.depth ∨
      limit - q.machine.depth = limit - p.machine.depth ∧ q.activity.Simpler p.activity := by
    by_cases ha : p.activity.tier = 0
    · obtain ⟨a, m⟩ := p
      cases a with
      | invoke f args =>
        obtain ⟨hlt, hd⟩ := bodyPart_below hq
        exact .inl (by omega)
      | call n callee args => cases ha
      | _ => cases ha
    · refine .inr ⟨?_, parts_simpler ha hq⟩
      obtain ⟨a, m⟩ := p
      cases a with
      | invoke f args => exact absurd rfl ha
      | _ => exact congrArg (limit - ·) hdepth
  exact induct limit step q
  termination_by (limit - p.machine.depth, p.activity.tier, p.activity.size)
  decreasing_by
    rcases hless with hlt | ⟨he, hlt | ⟨ht, hs⟩⟩
    · exact .left _ _ hlt
    · rw [he]
      exact .right _ (.left _ _ hlt)
    · rw [he, ht]
      exact .right _ (.right _ hs)

end Activity

end LivePatch
