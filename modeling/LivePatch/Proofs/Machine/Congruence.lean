/-
Relations between runs that are kept by composing runs. Running a tree is the composition of calls
and of plain parts, which end, leave the depth alone and make no call. So a relation that every plain
part has to itself, and that goes from the parts of a sequence to the whole, relates the runs of one
tree under two ways of calling as soon as it relates the calls. In the same way it relates the calls
under two ways of running the bodies of functions. A property of runs is the case in which only one of
the two runs is looked at.
-/
import LivePatch.Machine.Call
import LivePatch.Proofs.Sequence

namespace LivePatch

namespace Run

variable {α β : Type}

/-! ## Plain runs -/

/-- The run ends, with a value or a failure, at the depth it started from. -/
def Plain (x : Run α) : Prop :=
  ∀ m, ∃ h, (∃ a, x m = .ok a { m with heap := h }) ∨
    ∃ e, x m = .error (.failure e) { m with heap := h }

theorem plain_pure (a : α) : Plain (pure a : Run α) := fun m => ⟨m.heap, .inl ⟨a, rfl⟩⟩

theorem plain_fail (e : RunError) : Plain (fail e : Run α) := fun m => ⟨m.heap, .inr ⟨e, rfl⟩⟩

theorem plain_read (f : Heap → α) : Plain (read f) := fun m => ⟨m.heap, .inl ⟨f m.heap, rfl⟩⟩

theorem plain_make (f : Heap → α × Heap) : Plain (make f) :=
  fun m => ⟨(f m.heap).2, .inl ⟨(f m.heap).1, rfl⟩⟩

theorem plain_modifyHeap (f : Heap → Heap) : Plain (modifyHeap f) :=
  fun m => ⟨f m.heap, .inl ⟨(), rfl⟩⟩

theorem Plain.bind {x : Run α} {f : α → Run β} (hx : Plain x) (hf : ∀ a, Plain (f a)) :
    Plain (x >>= f) := by
  intro m
  obtain ⟨h, ⟨a, ha⟩ | ⟨e, he⟩⟩ := hx m
  · rw [bind_of_ok ha]
    exact hf a { m with heap := h }
  · exact ⟨h, .inr ⟨e, bind_of_error he f⟩⟩

theorem plain_getAttr (v : Value) (x : Name) : Plain (getAttr v x) := by
  refine (plain_read _).bind fun a => ?_
  cases a with
  | some found => exact plain_make _
  | none => exact (plain_read _).bind fun name => plain_fail _

theorem plain_setAttr (target : Value) (x : Name) (v : Value) : Plain (setAttr target x v) := by
  intro m
  unfold setAttr
  cases m.heap.setAttr? target x v with
  | some h => exact ⟨h, .inl ⟨(), rfl⟩⟩
  | none => exact ⟨m.heap, .inr ⟨_, rfl⟩⟩

theorem plain_operate (f : Heap → Except RunError Value) : Plain (operate f) := by
  refine (plain_read f).bind fun r => ?_
  cases r with
  | ok v => exact plain_pure v
  | error e => exact plain_fail e

theorem plain_valueOfName (frame : Frame) (x : Name) : Plain (valueOfName frame x) := by
  refine (plain_read _).bind fun r => ?_
  cases r with
  | some v => exact plain_pure v
  | none => exact plain_fail _

theorem plain_bind (frame : Frame) (x : Name) (v : Value) : Plain (frame.bind x v) := by
  unfold Frame.bind
  split
  · exact (plain_modifyHeap _).bind fun _ => plain_pure _
  · exact plain_pure _
  · exact plain_pure _

theorem plain_attrOr (v : Value) (x : Name) (default : Option Value) :
    Plain (Builtin.attrOr v x default) := by
  refine (plain_read _).bind fun a => ?_
  cases a with
  | some found => exact plain_make _
  | none =>
    cases default with
    | some w => exact plain_pure w
    | none => exact (plain_read _).bind fun _ => plain_fail _

theorem plain_lengthOf (v : Value) : Plain (Builtin.lengthOf v) := by
  unfold Builtin.lengthOf
  split
  · exact plain_pure _
  · exact (plain_read _).bind fun _ => plain_fail _

/-- Builtin functions are plain: none of them calls another value. -/
theorem plain_apply (b : Builtin) (args : List Value) : Plain (b.apply args) := by
  unfold Builtin.apply
  split
  · exact plain_fail _
  · split
    · exact (plain_read _).bind fun _ => plain_pure _
    · exact plain_lengthOf _
    · exact (plain_read _).bind fun _ => plain_pure _
    · exact plain_attrOr _ _ _
    · exact plain_attrOr _ _ _
    · exact (plain_read _).bind fun _ => plain_pure _
    · exact plain_fail _
    · exact (plain_read _).bind fun _ => plain_pure _
    · exact plain_fail _

/-! ## Congruences -/

/-- A relation between runs that goes from parts to the whole. -/
structure Congruence (R : ∀ {α : Type}, Run α → Run α → Prop) : Prop where
  plain : ∀ {α} {x : Run α}, Plain x → R x x
  bind : ∀ {α β} {x y : Run α} {f g : α → Run β}, R x y → (∀ a, R (f a) (g a)) →
    R (x >>= f) (y >>= g)

end Run

section

variable {R : ∀ {α : Type}, Run α → Run α → Prop} {call call' : Caller}

mutual

theorem Expr.eval_related (C : Run.Congruence @R) (hc : ∀ f args, R (call f args) (call' f args))
    (frame : Frame) : ∀ e : Expr, R (e.eval call frame) (e.eval call' frame)
  | .int _ _ | .str _ _ | .bool _ _ | .none _ => by
    simp only [Expr.eval]
    exact C.plain (Run.plain_pure _)
  | .ident x _ => by
    simp only [Expr.eval]
    exact C.plain (Run.plain_valueOfName frame x)
  | .attr object x _ => by
    simp only [Expr.eval]
    exact C.bind (Expr.eval_related C hc frame object) fun v => C.plain (Run.plain_getAttr v x)
  | .call callee args _ => by
    simp only [Expr.eval]
    refine C.bind (Expr.eval_related C hc frame callee) fun f => ?_
    exact C.bind (Expr.evalAll_related C hc frame args) fun vs => hc f vs
  | .binary op left right _ => by
    simp only [Expr.eval]
    refine C.bind (Expr.eval_related C hc frame left) fun v => ?_
    have hright := Expr.eval_related C hc frame right
    -- `and` and `or` may leave the right operand alone
    split
    · split
      · exact hright
      · exact C.plain (Run.plain_pure v)
    · split
      · exact C.plain (Run.plain_pure v)
      · exact hright
    · exact C.bind hright fun w => C.plain (Run.plain_operate _)
  | .unary op operand _ => by
    simp only [Expr.eval]
    exact C.bind (Expr.eval_related C hc frame operand) fun v => C.plain (Run.plain_operate _)

theorem Expr.evalAll_related (C : Run.Congruence @R) (hc : ∀ f args, R (call f args) (call' f args))
    (frame : Frame) : ∀ es : List Expr, R (Expr.evalAll call frame es) (Expr.evalAll call' frame es)
  | [] => by
    simp only [Expr.evalAll]
    exact C.plain (Run.plain_pure _)
  | e :: es => by
    simp only [Expr.evalAll]
    refine C.bind (Expr.eval_related C hc frame e) fun v => ?_
    exact C.bind (Expr.evalAll_related C hc frame es) fun vs => C.plain (Run.plain_pure _)

end

namespace Run

variable (C : Congruence @R) (hc : ∀ f args, R (call f args) (call' f args)) (frame : Frame)

include C hc

theorem basesOf_related (name : Name) : ∀ es : List Expr,
    R (basesOf call frame name es) (basesOf call' frame name es)
  | [] => C.plain (plain_pure _)
  | e :: es => by
    refine C.bind (Expr.eval_related C hc frame e) fun v => ?_
    cases v with
    | type c => exact C.bind (basesOf_related name es) fun cs => C.plain (plain_pure _)
    | _ => exact C.plain ((plain_read _).bind fun _ => plain_fail _)

theorem defineFunction_related (name : Name) (params : List Param) (body : List Stmt)
    (doc : Option String) : R (defineFunction call frame name params body doc)
      (defineFunction call' frame name params body doc) :=
  C.bind (Expr.evalAll_related C hc frame _) fun _ => C.plain (plain_make _)

theorem assign_related (v : Value) (target : Expr) :
    R (assign call frame v target) (assign call' frame v target) := by
  unfold assign
  split
  · exact C.plain (plain_bind frame _ v)
  · rename_i object x _
    exact C.bind (Expr.eval_related C hc frame object) fun o =>
      C.plain ((plain_setAttr o x v).bind fun _ => plain_pure _)
  · exact C.plain (plain_pure _)

end Run

mutual

theorem Stmt.run_related (C : Run.Congruence @R) (hc : ∀ f args, R (call f args) (call' f args)) :
    ∀ (s : Stmt) (frame : Frame), R (s.run call frame) (s.run call' frame)
  | .bind x value _, frame => by
    simp only [Stmt.run]
    refine C.bind (Expr.eval_related C hc frame value) fun v => ?_
    exact C.plain ((Run.plain_bind frame x v).bind fun _ => Run.plain_pure _)
  | .assign target value _, frame => by
    simp only [Stmt.run]
    refine C.bind (Expr.eval_related C hc frame value) fun v => ?_
    exact C.bind (Run.assign_related C hc frame v target) fun _ => C.plain (Run.plain_pure _)
  | .function x params body doc _, frame => by
    simp only [Stmt.run]
    refine C.bind (Run.defineFunction_related C hc frame x params body doc) fun f => ?_
    exact C.plain ((Run.plain_bind frame x _).bind fun _ => Run.plain_pure _)
  | .classDef x bases body doc _, frame => by
    simp only [Stmt.run]
    refine C.bind (Run.basesOf_related C hc frame x bases) fun cs => ?_
    refine C.bind (Stmt.runAll_related C hc body _) fun flow => ?_
    cases flow with
    | leave v => exact C.plain (Run.plain_fail _)
    | next last =>
      exact C.plain ((Run.plain_make _).bind fun c =>
        (Run.plain_bind frame x _).bind fun _ => Run.plain_pure _)
  | .leave value _, frame => by
    simp only [Stmt.run]
    split
    · cases value with
      | some e => exact C.bind (Expr.eval_related C hc frame e) fun v => C.plain (Run.plain_pure _)
      | none => exact C.plain (Run.plain_pure _)
    · exact C.plain (Run.plain_fail _)
  | .raise value _, frame => by
    simp only [Stmt.run]
    refine C.bind (Expr.eval_related C hc frame value) fun v => ?_
    exact C.plain ((Run.plain_read _).bind fun _ => Run.plain_fail _)
  | .branch cond whenTrue whenFalse _, frame => by
    simp only [Stmt.run]
    refine C.bind (Expr.eval_related C hc frame cond) fun v => ?_
    split
    · exact Stmt.runAll_related C hc whenTrue frame
    · exact Stmt.runAll_related C hc whenFalse frame
  | .expr value, frame => by
    simp only [Stmt.run]
    exact C.bind (Expr.eval_related C hc frame value) fun _ => C.plain (Run.plain_pure _)

theorem Stmt.runAll_related (C : Run.Congruence @R) (hc : ∀ f args, R (call f args) (call' f args)) :
    ∀ (ss : List Stmt) (frame : Frame), R (Stmt.runAll call frame ss) (Stmt.runAll call' frame ss)
  | [], frame => by
    simp only [Stmt.runAll]
    exact C.plain (Run.plain_pure _)
  | s :: ss, frame => by
    simp only [Stmt.runAll]
    refine C.bind (Stmt.run_related C hc s frame) fun flow => ?_
    cases flow with
    | leave v => exact C.plain (Run.plain_pure _)
    | next frame' => exact Stmt.runAll_related C hc ss frame'

end

end

/-! ## Calls -/

namespace Run

section

variable {R : ∀ {α : Type}, Run α → Run α → Prop} {i j : Invoker}

/-- A call that is given up has to be related to itself, since it is not plain. -/
theorem callWithin_related (C : Congruence @R) (hstop : R (throw .divergence : Run Value) (throw .divergence))
    (hi : ∀ f args, R (i f args) (j f args)) : ∀ (n : Nat) (callee : Value) (args : List Value),
      R (callWithin i n callee args) (callWithin j n callee args)
  | 0, _, _ => hstop
  | n + 1, callee, args => by
    unfold callWithin
    cases callee with
    | builtin b => exact C.plain (plain_apply b args)
    | function f => exact hi f args
    | method r => exact C.bind (C.plain (plain_read _)) fun o => hi _ _
    | type c =>
      refine C.bind (C.plain (plain_make _)) fun o => C.bind (C.plain (plain_read _)) fun init => ?_
      split
      · exact C.bind (hi _ _) fun _ => C.plain (plain_pure _)
      · exact C.bind (callWithin_related C hstop hi n _ args) fun _ => C.plain (plain_pure _)
      · split
        · exact C.plain (plain_pure _)
        · exact C.plain ((plain_read _).bind fun _ => plain_fail _)
    | _ => exact C.plain ((plain_read _).bind fun _ => plain_fail _)

theorem callBy_related (C : Congruence @R) (hstop : R (throw .divergence : Run Value) (throw .divergence))
    (hi : ∀ f args, R (i f args) (j f args)) (callee : Value) (args : List Value) :
    R (callBy i callee args) (callBy j callee args) :=
  C.bind (C.plain (plain_read _)) fun n => callWithin_related C hstop hi (n + 2) callee args

end

end Run

end LivePatch
