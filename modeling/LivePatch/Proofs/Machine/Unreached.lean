/-
Code that can be written down assigns to targets only. Two runs that differ in nothing but what they would
do at any other assignment do the same from every machine on whose heap all code can be written down, and
leave such a machine. Running a tree is put together from calls and from parts that leave all code alone,
and the only part that brings code to the heap is the definition of a function in the tree itself.
-/
import LivePatch.Proofs.Machine.Steady
import LivePatch.Proofs.Machine.Target

namespace LivePatch

namespace Run

variable {α β : Type}

/-! ## Runs that leave code alone -/

/-- However the run ends, every function has the code that it had, and there is no new one. -/
def Quiet (x : Run α) : Prop := ∀ m : Machine, m.heap.SameCode (final (x m)).heap

theorem quiet_pure (a : α) : Quiet (pure a : Run α) := fun _ _ => rfl

theorem quiet_fail (e : RunError) : Quiet (fail e : Run α) := fun _ _ => rfl

theorem quiet_throw (e : Halt RunError) : Quiet (throw e : Run α) := fun _ _ => rfl

theorem quiet_read (f : Heap → α) : Quiet (read f) := fun _ _ => rfl

theorem quiet_depth : Quiet depth := fun _ _ => rfl

theorem quiet_make {f : Heap → α × Heap} (hf : ∀ h : Heap, h.SameCode (f h).2) : Quiet (make f) :=
  fun m => hf m.heap

theorem Quiet.bind {x : Run α} {f : α → Run β} (hx : Quiet x) (hf : ∀ a, Quiet (f a)) : Quiet (x >>= f) := by
  intro m
  have h := hx m
  cases hr : x m with
  | ok a m' =>
    rw [hr] at h
    rw [bind_of_ok hr]
    exact h.trans (hf a m')
  | error e m' =>
    rw [hr] at h
    rw [bind_of_error hr]
    exact h

/-- A run that brings no code to the heap and changes none. -/
theorem Steady.quiet {x : Run α} (hx : Steady x) : Quiet x :=
  fun m f => congrArg (fun program => program.2.1) ((hx.programs m).get f)

theorem quiet_getAttr (v : Value) (x : Name) : Quiet (getAttr v x) := (steady_getAttr v x).quiet

theorem quiet_setAttr (target : Value) (x : Name) (v : Value) : Quiet (setAttr target x v) :=
  (steady_setAttr target x v).quiet

theorem quiet_operate (f : Heap → Except RunError Value) : Quiet (operate f) := (steady_operate f).quiet

theorem quiet_valueOfName (frame : Frame) (x : Name) : Quiet (valueOfName frame x) :=
  (steady_valueOfName frame x).quiet

theorem quiet_bind (frame : Frame) (x : Name) (v : Value) : Quiet (frame.bind x v) :=
  (steady_bind frame x v).quiet

theorem quiet_apply (b : Builtin) (args : List Value) : Quiet (b.apply args) := (steady_apply b args).quiet

/-! ## Runs that do the same -/

/-- From every machine on whose heap all code can be written down, the two runs do the same, and leave
such a machine however they end. -/
def Alike (x y : Run α) : Prop :=
  ∀ m : Machine, m.heap.CodeWellFormed → y m = x m ∧ (final (x m)).heap.CodeWellFormed

theorem Quiet.alike {x : Run α} (hx : Quiet x) : Alike x x := fun m hm => ⟨rfl, hm.of_sameCode (hx m)⟩

theorem Alike.bind {x y : Run α} {f g : α → Run β} (hx : Alike x y) (hf : ∀ a, Alike (f a) (g a)) :
    Alike (x >>= f) (y >>= g) := by
  intro m hm
  obtain ⟨he, hm'⟩ := hx m hm
  cases hr : x m with
  | ok a m' =>
    rw [hr] at he hm'
    rw [bind_of_ok hr, bind_of_ok he]
    exact hf a m' hm'
  | error e m' =>
    rw [hr] at he hm'
    rw [bind_of_error hr, bind_of_error he]
    exact ⟨rfl, hm'⟩

/-- What is read from such a heap may be relied on. -/
theorem Alike.read {r : Heap → α} {P : α → Prop} {f g : α → Run β} (hr : ∀ h : Heap, h.CodeWellFormed → P (r h))
    (hf : ∀ a, P a → Alike (f a) (g a)) : Alike (Run.read r >>= f) (Run.read r >>= g) :=
  fun m hm => hf _ (hr _ hm) m hm

theorem Alike.deeper {x y : Run α} (hx : Alike x y) : Alike (deeper x) (deeper y) := by
  intro m hm
  obtain ⟨he, hm'⟩ := hx { m with depth := m.depth + 1 } hm
  unfold Run.deeper
  rw [he]
  cases hr : x { m with depth := m.depth + 1 } with
  | ok a m' => rw [hr] at hm'; exact ⟨rfl, hm'⟩
  | error e m' => rw [hr] at hm'; exact ⟨rfl, hm'⟩

end Run

open Run (Alike)

section

variable {other : OtherTarget} {call call' : Caller}

mutual

theorem Expr.eval_alike (hc : ∀ f args, Alike (call f args) (call' f args)) (frame : Frame) :
    ∀ e : Expr, Alike (e.eval call frame) (e.eval call' frame)
  | .int .. | .str .. | .bool .. | .none .. => by
    simp only [Expr.eval]
    exact (Run.quiet_pure _).alike
  | .ident x _ => by
    simp only [Expr.eval]
    exact (Run.quiet_valueOfName frame x).alike
  | .attr object x _ => by
    simp only [Expr.eval]
    exact (Expr.eval_alike hc frame object).bind fun v => (Run.quiet_getAttr v x).alike
  | .call callee args _ => by
    simp only [Expr.eval]
    refine (Expr.eval_alike hc frame callee).bind fun f => ?_
    exact (Expr.evalAll_alike hc frame args).bind fun vs => hc f vs
  | .binary op left right _ => by
    simp only [Expr.eval]
    refine (Expr.eval_alike hc frame left).bind fun v => ?_
    have hright := Expr.eval_alike hc frame right
    -- `and` and `or` may leave their right operand alone
    split
    · split
      · exact hright
      · exact (Run.quiet_pure v).alike
    · split
      · exact (Run.quiet_pure v).alike
      · exact hright
    · exact hright.bind fun w => (Run.quiet_operate _).alike
  | .unary op operand _ => by
    simp only [Expr.eval]
    exact (Expr.eval_alike hc frame operand).bind fun v => (Run.quiet_operate _).alike

theorem Expr.evalAll_alike (hc : ∀ f args, Alike (call f args) (call' f args)) (frame : Frame) : ∀ es : List Expr,
    Alike (Expr.evalAll call frame es) (Expr.evalAll call' frame es)
  | [] => by
    simp only [Expr.evalAll]
    exact (Run.quiet_pure _).alike
  | e :: es => by
    simp only [Expr.evalAll]
    refine (Expr.eval_alike hc frame e).bind fun v => ?_
    exact (Expr.evalAll_alike hc frame es).bind fun vs => (Run.quiet_pure _).alike

end

namespace Run

variable (hc : ∀ f args, Alike (call f args) (call' f args))

include hc

theorem basesOf_alike (frame : Frame) (name : Name) : ∀ es : List Expr,
    Alike (basesOf call frame name es) (basesOf call' frame name es)
  | [] => (quiet_pure _).alike
  | e :: es => by
    refine (Expr.eval_alike hc frame e).bind fun v => ?_
    cases v with
    | type c => exact (basesOf_alike frame name es).bind fun cs => (quiet_pure _).alike
    | _ => exact ((quiet_read _).bind fun _ => quiet_fail _).alike

/-- The one part of running that brings code to the heap. -/
theorem defineFunction_alike (frame : Frame) (name : Name) (params : List Param) {body : List Stmt}
    (hbody : Stmt.allWellFormed body = true) (doc : Option String) :
    Alike (defineFunction call frame name params body doc) (defineFunction call' frame name params body doc) :=
  (Expr.evalAll_alike hc frame _).bind fun _ _ hm => ⟨rfl, hm.newFunction hbody⟩

theorem assign_alike (frame : Frame) (v : Value) (target : Expr) :
    Alike (assign call frame v target) (assign call' frame v target) := by
  unfold assign
  split
  · exact (quiet_bind frame _ v).alike
  · rename_i object x _
    exact (Expr.eval_alike hc frame object).bind fun o =>
      ((quiet_setAttr o x v).bind fun _ => quiet_pure _).alike
  · exact (quiet_pure _).alike

/-- An assignment to a target is not left to anything else. -/
theorem assignElse_alike (frame : Frame) (v : Value) {target : Expr} (ht : target.isTarget = true) :
    Alike (assign call frame v target) (assignElse other call' frame v target) := by
  unfold assignElse
  rw [if_pos ht]
  exact assign_alike hc frame v target

end Run

mutual

theorem Stmt.run_alike (hc : ∀ f args, Alike (call f args) (call' f args)) :
    ∀ (s : Stmt) (frame : Frame), s.wellFormed = true →
    Alike (s.run call frame) (s.runElse other call' frame)
  | .bind x value _, frame, _ => by
    simp only [Stmt.run, Stmt.runElse]
    refine (Expr.eval_alike hc frame value).bind fun v => ?_
    exact ((Run.quiet_bind frame x v).bind fun _ => Run.quiet_pure _).alike
  | .assign target value _, frame, h => by
    simp only [Stmt.wellFormed, Bool.and_eq_true] at h
    simp only [Stmt.run, Stmt.runElse]
    refine (Expr.eval_alike hc frame value).bind fun v => ?_
    exact (Run.assignElse_alike hc frame v h.1.1).bind fun _ => (Run.quiet_pure _).alike
  | .function x params body doc _, frame, h => by
    simp only [Stmt.wellFormed, Bool.and_eq_true] at h
    simp only [Stmt.run, Stmt.runElse]
    refine (Run.defineFunction_alike hc frame x params h.2 doc).bind fun f => ?_
    exact ((Run.quiet_bind frame x _).bind fun _ => Run.quiet_pure _).alike
  | .classDef x bases body doc _, frame, h => by
    simp only [Stmt.wellFormed, Bool.and_eq_true] at h
    simp only [Stmt.run, Stmt.runElse]
    refine (Run.basesOf_alike hc frame x bases).bind fun cs => ?_
    refine (Stmt.runAll_alike hc body _ h.2).bind fun flow => ?_
    cases flow with
    | leave v => exact (Run.quiet_fail _).alike
    | next last =>
      exact ((Run.quiet_make fun _ => .of_functions rfl).bind fun c =>
        (Run.quiet_bind frame x _).bind fun _ => Run.quiet_pure _).alike
  | .leave value _, frame, _ => by
    simp only [Stmt.run, Stmt.runElse]
    split
    · cases value with
      | some e => exact (Expr.eval_alike hc frame e).bind fun v => (Run.quiet_pure _).alike
      | none => exact (Run.quiet_pure _).alike
    · exact (Run.quiet_fail _).alike
  | .raise value _, frame, _ => by
    simp only [Stmt.run, Stmt.runElse]
    refine (Expr.eval_alike hc frame value).bind fun v => ?_
    exact ((Run.quiet_read _).bind fun _ => Run.quiet_fail _).alike
  | .branch cond whenTrue whenFalse _, frame, h => by
    simp only [Stmt.wellFormed, Bool.and_eq_true] at h
    simp only [Stmt.run, Stmt.runElse]
    refine (Expr.eval_alike hc frame cond).bind fun v => ?_
    split
    · exact Stmt.runAll_alike hc whenTrue frame h.1.2
    · exact Stmt.runAll_alike hc whenFalse frame h.2
  | .expr value, frame, _ => by
    simp only [Stmt.run, Stmt.runElse]
    exact (Expr.eval_alike hc frame value).bind fun _ => (Run.quiet_pure _).alike

theorem Stmt.runAll_alike (hc : ∀ f args, Alike (call f args) (call' f args)) :
    ∀ (ss : List Stmt) (frame : Frame), Stmt.allWellFormed ss = true →
    Alike (Stmt.runAll call frame ss) (Stmt.runAllElse other call' frame ss)
  | [], frame, _ => by
    simp only [Stmt.runAll, Stmt.runAllElse]
    exact (Run.quiet_pure _).alike
  | s :: ss, frame, h => by
    simp only [Stmt.allWellFormed, Bool.and_eq_true] at h
    simp only [Stmt.runAll, Stmt.runAllElse]
    refine (Stmt.run_alike hc s frame h.1).bind fun flow => ?_
    cases flow with
    | leave v => exact (Run.quiet_pure _).alike
    | next frame' => exact Stmt.runAll_alike hc ss frame' h.2

end

end

/-! ## Calls and units -/

namespace Run

variable {other : OtherTarget} {invoke invoke' : Invoker}
  (hi : ∀ f args, Alike (invoke f args) (invoke' f args))

include hi

theorem callWithin_alike : ∀ (n : Nat) (callee : Value) (args : List Value),
    Alike (callWithin invoke n callee args) (callWithin invoke' n callee args)
  | 0, _, _ => (quiet_throw _).alike
  | n + 1, callee, args => by
    unfold callWithin
    cases callee with
    | builtin b => exact (quiet_apply b args).alike
    | function f => exact hi f args
    | method m => exact (quiet_read _).alike.bind fun o => hi _ _
    | type c =>
      refine (quiet_make fun _ => .of_functions rfl).alike.bind fun o => ?_
      refine (quiet_read _).alike.bind fun found => ?_
      split
      · exact (hi _ _).bind fun _ => (quiet_pure _).alike
      · exact (callWithin_alike n _ args).bind fun _ => (quiet_pure _).alike
      · split
        · exact (quiet_pure _).alike
        · exact ((quiet_read _).bind fun _ => quiet_fail _).alike
    | _ => exact ((quiet_read _).bind fun _ => quiet_fail _).alike

theorem callBy_alike (callee : Value) (args : List Value) :
    Alike (callBy invoke callee args) (callBy invoke' callee args) :=
  (quiet_read _).alike.bind fun _ => callWithin_alike hi _ callee args

omit hi

/-- The body that is run is that of a function on the heap. -/
theorem invokeWithin_alike (limit : Nat) : ∀ (n : Nat) (f : FunctionRef) (args : List Value),
    Alike (invokeWithin limit n f args) (invokeWithinElse other limit n f args)
  | 0, _, _ => (quiet_throw _).alike
  | n + 1, f, args => by
    unfold invokeWithin invokeWithinElse
    refine quiet_depth.alike.bind fun d => ?_
    split
    · exact (quiet_fail _).alike
    · -- all that is known of the function is that it stands on the heap
      refine .read (P := fun o => Stmt.allWellFormed o.state.code.body = true) (fun h hh => hh f) fun o ho => ?_
      generalize bindArguments o.name o.state.code.params o.state.defaults args = bound
      cases bound with
      | error e => exact (quiet_fail _).alike
      | ok locals =>
        refine (Stmt.runAll_alike (callBy_alike (invokeWithin_alike limit n)) _ _ ho).deeper.bind fun flow => ?_
        cases flow <;> exact (quiet_pure _).alike

theorem call_alike (other : OtherTarget) (limit : Nat) (callee : Value) (args : List Value) :
    Alike (call limit callee args) (callElse other limit callee args) :=
  callBy_alike (fun f args => quiet_depth.alike.bind fun _ => invokeWithin_alike limit _ f args) callee args

end Run

theorem CodeUnit.run_alike (other : OtherTarget) {u : CodeUnit} (hu : u.wellFormed = true) (limit : Nat)
    (globals : ScopeRef) (module : Name) :
    Alike (u.run limit globals module) (u.runElse other limit globals module) := by
  refine (Stmt.runAll_alike (Run.call_alike other limit) u.body _ hu).bind fun flow => ?_
  cases flow with
  | next _ => exact (Run.quiet_pure _).alike
  | leave _ => exact (Run.quiet_fail _).alike

end LivePatch
