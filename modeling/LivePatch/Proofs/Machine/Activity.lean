/-
What happens in a run. Running a tree, calling a value and running a body consist of parts that are done one
after the other, each on the machine that the part before it has left. So whatever happens in a run is one
of its parts, or a part of a part, and begins on a machine of its own. What a law says of the machine at the
start of a run it says of the machine whenever something begins or ends in the course of it.
-/
import LivePatch.Proofs.Machine.Keep
import LivePatch.Proofs.Sequence

namespace LivePatch

/-- Something that is done in a run. -/
inductive Activity where
  | eval (frame : Frame) (e : Expr)
  | evalAll (frame : Frame) (es : List Expr)
  | basesOf (frame : Frame) (name : Name) (es : List Expr)
  | define (frame : Frame) (name : Name) (params : List Param) (body : List Stmt) (doc : Option String)
  | assign (frame : Frame) (v : Value) (target : Expr)
  | run (frame : Frame) (s : Stmt)
  | runAll (frame : Frame) (ss : List Stmt)
  /-- A call that follows at most `n` classes from one `init` to the next. -/
  | call (n : Nat) (callee : Value) (args : List Value)
  /-- A call of a function, up to the end of its body. -/
  | invoke (f : FunctionRef) (args : List Value)

/-- The beginning of an activity: what is done, and the machine on which. -/
structure Moment where
  activity : Activity
  machine : Machine

namespace Run

variable {α β : Type}

/-- What comes after a part that ends with a value. -/
def andThen (r : EStateM.Result (Halt RunError) Machine α) (f : α → Machine → List β) : List β :=
  match r with
  | .ok a m => f a m
  | .error _ _ => []

theorem mem_andThen {r : EStateM.Result (Halt RunError) Machine α} {f : α → Machine → List β} {b : β} :
    b ∈ andThen r f ↔ ∃ a m, r = .ok a m ∧ b ∈ f a m := by
  constructor
  · intro h
    cases r with
    | ok a m => exact ⟨a, m, rfl, h⟩
    | error e m => cases h
  · rintro ⟨a, m, rfl, h⟩
    exact h

/-- How a run ends, whatever its value is. -/
def ending {ε σ α : Type} : EStateM.Result ε σ α → EStateM.Result ε σ Unit
  | .ok _ s => .ok () s
  | .error e s => .error e s

theorem final_ending {ε σ α : Type} (r : EStateM.Result ε σ α) : final (ending r) = final r := by
  cases r <;> rfl

/-- The call of a value. -/
def callActivity (m : Machine) (callee : Value) (args : List Value) : Activity :=
  .call (m.heap.classes.size + 2) callee args

end Run

namespace Activity

variable (limit : Nat)

/-- The machine that an activity leaves, however it ends. -/
def final (m : Machine) : Activity → Machine
  | eval frame e => Run.final (e.eval (Run.call limit) frame m)
  | evalAll frame es => Run.final (Expr.evalAll (Run.call limit) frame es m)
  | basesOf frame name es => Run.final (Run.basesOf (Run.call limit) frame name es m)
  | define frame name params body doc =>
    Run.final (Run.defineFunction (Run.call limit) frame name params body doc m)
  | assign frame v target => Run.final (Run.assign (Run.call limit) frame v target m)
  | run frame s => Run.final (s.run (Run.call limit) frame m)
  | runAll frame ss => Run.final (Stmt.runAll (Run.call limit) frame ss m)
  | call n callee args => Run.final (Run.callWithin (Run.invoke limit) n callee args m)
  | invoke f args => Run.final (Run.invoke limit f args m)

/-- How an activity ends when the bodies of functions are run by `invoke`. -/
def endsBy (invoke : Run.Invoker) (m : Machine) : Activity → EStateM.Result (Halt RunError) Machine Unit
  | eval frame e => Run.ending (e.eval (Run.callBy invoke) frame m)
  | evalAll frame es => Run.ending (Expr.evalAll (Run.callBy invoke) frame es m)
  | basesOf frame name es => Run.ending (Run.basesOf (Run.callBy invoke) frame name es m)
  | define frame name params body doc =>
    Run.ending (Run.defineFunction (Run.callBy invoke) frame name params body doc m)
  | assign frame v target => Run.ending (Run.assign (Run.callBy invoke) frame v target m)
  | run frame s => Run.ending (s.run (Run.callBy invoke) frame m)
  | runAll frame ss => Run.ending (Stmt.runAll (Run.callBy invoke) frame ss m)
  | call n callee args => Run.ending (Run.callWithin invoke n callee args m)
  | .invoke f args => Run.ending (invoke f args m)

/-- How an activity ends. -/
def ending (m : Machine) (a : Activity) : EStateM.Result (Halt RunError) Machine Unit :=
  a.endsBy (Run.invoke limit) m

theorem final_ending (m : Machine) (a : Activity) : Run.final (a.ending limit m) = a.final limit m := by
  cases a <;> exact Run.final_ending _

/-- The right operand of a binary operator, if it is evaluated when the left one has the value `v`. -/
def rightPart (frame : Frame) (op : BinaryOp) (v : Value) (right : Expr) (m : Machine) : List Moment :=
  match op with
  | .and => if v.isTruthy then [⟨.eval frame right, m⟩] else []
  | .or => if v.isTruthy then [] else [⟨.eval frame right, m⟩]
  | _ => [⟨.eval frame right, m⟩]

/-- The parts of evaluating an expression. -/
def exprParts (frame : Frame) (m : Machine) : Expr → List Moment
  | .int .. | .str .. | .bool .. | .none .. | .ident .. => []
  | .attr object _ _ => [⟨.eval frame object, m⟩]
  | .call callee args _ =>
    ⟨.eval frame callee, m⟩ :: Run.andThen (callee.eval (Run.call limit) frame m) fun f m₁ =>
      ⟨.evalAll frame args, m₁⟩ :: Run.andThen (Expr.evalAll (Run.call limit) frame args m₁) fun vs m₂ =>
        [⟨Run.callActivity m₂ f vs, m₂⟩]
  | .binary op left right _ =>
    ⟨.eval frame left, m⟩ :: Run.andThen (left.eval (Run.call limit) frame m) fun v m₁ =>
      rightPart frame op v right m₁
  | .unary _ operand _ => [⟨.eval frame operand, m⟩]

/-- The parts of running a statement. -/
def stmtParts (frame : Frame) (m : Machine) : Stmt → List Moment
  | .bind _ value _ => [⟨.eval frame value, m⟩]
  | .assign target value _ =>
    ⟨.eval frame value, m⟩ :: Run.andThen (value.eval (Run.call limit) frame m) fun v m₁ =>
      [⟨.assign frame v target, m₁⟩]
  | .function x params body doc _ => [⟨.define frame x params body doc, m⟩]
  | .classDef x bases body doc _ =>
    ⟨.basesOf frame x bases, m⟩ :: Run.andThen (Run.basesOf (Run.call limit) frame x bases m) fun _ m₁ =>
      [⟨.runAll { frame with locals := .classBody (Run.initialAttrs frame.module doc) } body, m₁⟩]
  | .leave value _ =>
    match value with
    | some e => if frame.isFunction then [⟨.eval frame e, m⟩] else []
    | none => []
  | .raise value _ => [⟨.eval frame value, m⟩]
  | .branch cond whenTrue whenFalse _ =>
    ⟨.eval frame cond, m⟩ :: Run.andThen (cond.eval (Run.call limit) frame m) fun v m₁ =>
      [⟨.runAll frame (if v.isTruthy then whenTrue else whenFalse), m₁⟩]
  | .expr value => [⟨.eval frame value, m⟩]

/-- The parts of calling a value that may follow `n` classes after this one. -/
def callParts (n : Nat) (args : List Value) (m : Machine) : Value → List Moment
  | .function f => [⟨.invoke f args, m⟩]
  | .method r => [⟨.invoke (m.heap.method r).function ((m.heap.method r).receiver :: args), m⟩]
  | .type c =>
    let m₁ : Machine := { m with heap := (m.heap.newInstance c).2 }
    match m.heap.lookup c "init" with
    | some (.function f) => [⟨.invoke f (.object (m.heap.newInstance c).1 :: args), m₁⟩]
    | some v => [⟨.call n v args, m₁⟩]
    | none => []
  | _ => []

/-- The part of calling a function: its body, one call deeper, when the limit and the arguments allow it. -/
def bodyPart (f : FunctionRef) (args : List Value) (m : Machine) : List Moment :=
  if limit ≤ m.depth then [] else
  let o := m.heap.function f
  match Run.bindArguments o.name o.state.code.params o.state.defaults args with
  | .error _ => []
  | .ok locals =>
    [⟨.runAll ⟨o.globals, o.module, .function locals⟩ o.state.code.body, { m with depth := m.depth + 1 }⟩]

/-- The parts of an activity, in the order in which they are done. -/
def parts (m : Machine) : Activity → List Moment
  | eval frame e => exprParts limit frame m e
  | evalAll _ [] => []
  | evalAll frame (e :: es) =>
    ⟨.eval frame e, m⟩ :: Run.andThen (e.eval (Run.call limit) frame m) fun _ m₁ => [⟨.evalAll frame es, m₁⟩]
  | basesOf _ _ [] => []
  | basesOf frame name (e :: es) =>
    ⟨.eval frame e, m⟩ :: Run.andThen (e.eval (Run.call limit) frame m) fun v m₁ =>
      match v with
      | .type _ => [⟨.basesOf frame name es, m₁⟩]
      | _ => []
  | define frame _ params _ _ => [⟨.evalAll frame (params.filterMap (·.default)), m⟩]
  | assign frame _ target =>
    match target with
    | .attr object _ _ => [⟨.eval frame object, m⟩]
    | _ => []
  | run frame s => stmtParts limit frame m s
  | runAll _ [] => []
  | runAll frame (s :: ss) =>
    ⟨.run frame s, m⟩ :: Run.andThen (s.run (Run.call limit) frame m) fun flow m₁ =>
      match flow with
      | .next frame' => [⟨.runAll frame' ss, m₁⟩]
      | .leave _ => []
  | call 0 _ _ => []
  | call (n + 1) callee args => callParts n args m callee
  | invoke f args => bodyPart limit f args m

end Activity

/-- What begins in the course of an activity: the activity itself, and the parts of what begins. -/
inductive Activity.Happens (limit : Nat) (root : Moment) : Moment → Prop
  | start : Happens limit root root
  | part {p q : Moment} (h : Happens limit root p) (hq : q ∈ p.activity.parts limit p.machine) :
      Happens limit root q

/-- The machine that a unit leaves is the one that its statements leave. -/
theorem CodeUnit.run_final (limit : Nat) (u : CodeUnit) (globals : ScopeRef) (name : Name) (m : Machine) :
    Run.final (u.run limit globals name m) =
      (Activity.runAll ⟨globals, name, .module⟩ u.body).final limit m := by
  show Run.final (u.run limit globals name m) =
    Run.final (Stmt.runAll (Run.call limit) ⟨globals, name, .module⟩ u.body m)
  rw [CodeUnit.run]
  cases hr : Stmt.runAll (Run.call limit) ⟨globals, name, .module⟩ u.body m with
  | error e k => rw [bind_of_error hr]; rfl
  | ok flow k =>
    rw [bind_of_ok hr]
    cases flow <;> rfl

/-! ## Laws at every moment -/

namespace Run

variable {L : Law} {α : Type} {m m' : Machine}

theorem Keeps.of_ok {x : Run α} {Q : α → Heap → Prop} (h : Keeps L m x Q) {a : α} (hr : x m = .ok a m') :
    L.Stays m.heap m'.heap ∧ Q a m'.heap := by
  unfold Keeps at h
  rw [hr] at h
  exact h

end Run

namespace Activity

variable {L : Law} {limit : Nat} {m : Machine}

/-- The frames and values of an activity are of the law. -/
def Fits (L : Law) (h : Heap) : Activity → Prop
  | eval frame _ | evalAll frame _ | basesOf frame _ _ | define frame _ _ _ _ | run frame _ | runAll frame _ =>
    L.Fits h frame
  | assign frame v _ => L.Fits h frame ∧ L.val h v
  | call _ callee args => L.val h callee ∧ ∀ v ∈ args, L.val h v
  | invoke f args => L.val h (.function f) ∧ ∀ v ∈ args, L.val h v

/-- Something can begin on the machine as far as the law goes, which has been kept since the heap `h`. -/
def Lawful (L : Law) (h : Heap) (p : Moment) : Prop := L.Stays h p.machine.heap ∧ p.activity.Fits L p.machine.heap

theorem final_keeps {a : Activity} (hi : L.inv m.heap) (hf : a.Fits L m.heap) :
    L.Stays m.heap (a.final limit m).heap := by
  have hcall := Run.call_keeps (L := L) limit
  cases a with
  | eval frame e => exact (Expr.eval_keeps hcall e m hi hf).final
  | evalAll frame es => exact (Expr.evalAll_keeps hcall es m hi hf).final
  | basesOf frame name es => exact (Run.basesOf_keeps hcall name es m hi hf).final
  | define frame name params body doc => exact (Run.defineFunction_keeps hcall hi hf name params body doc).final
  | assign frame v target => exact (Run.assign_keeps hcall hi hf.1 hf.2 target).final
  | run frame s => exact (Stmt.run_keeps hcall s frame m hi hf).final
  | runAll frame ss => exact (Stmt.runAll_keeps hcall ss frame m hi hf).final
  | call n callee args => exact (Run.callWithin_keeps (Run.invoke_keeps limit) n m callee args hi hf.1 hf.2).final
  | invoke f args => exact (Run.invoke_keeps limit m f args hi hf.1 hf.2).final

theorem eq_of_mem_rightPart {frame : Frame} {op : BinaryOp} {v : Value} {right : Expr} {q : Moment}
    (hq : q ∈ rightPart frame op v right m) : q = ⟨.eval frame right, m⟩ := by
  unfold rightPart at hq
  split at hq <;> first | exact List.mem_singleton.1 hq | skip
  all_goals split at hq <;> first | exact List.mem_singleton.1 hq | cases hq

theorem lawful_of_mem_singleton {p q : Moment} (hq : Lawful L m.heap q) (hp : p ∈ [q]) : Lawful L m.heap p :=
  List.mem_singleton.1 hp ▸ hq

theorem exprParts_lawful {frame : Frame} (hi : L.inv m.heap) (hf : L.Fits m.heap frame) (e : Expr) :
    ∀ p ∈ exprParts limit frame m e, Lawful L m.heap p := by
  have hcall := Run.call_keeps (L := L) limit
  have hhere : ∀ e', Lawful L m.heap ⟨.eval frame e', m⟩ := fun _ => ⟨.refl hi, hf⟩
  intro p hp
  cases e with
  | int | str | bool | none | ident => cases hp
  | attr object x => exact lawful_of_mem_singleton (hhere _) hp
  | unary op operand => exact lawful_of_mem_singleton (hhere _) hp
  | call callee args =>
    rcases List.mem_cons.1 hp with rfl | hp
    · exact hhere _
    obtain ⟨f, m₁, hr, hp⟩ := Run.mem_andThen.1 hp
    obtain ⟨hs, hv⟩ := (Expr.eval_keeps hcall callee m hi hf).of_ok hr
    rcases List.mem_cons.1 hp with rfl | hp
    · exact ⟨hs, hf.later hs⟩
    obtain ⟨vs, m₂, hr₂, hp⟩ := Run.mem_andThen.1 hp
    obtain ⟨hs₂, hvs⟩ := (Expr.evalAll_keeps hcall args m₁ hs.1 (hf.later hs)).of_ok hr₂
    rw [List.mem_singleton.1 hp]
    exact ⟨hs.trans hs₂, Law.val_later hs₂ hv, hvs⟩
  | binary op left right =>
    rcases List.mem_cons.1 hp with rfl | hp
    · exact hhere _
    obtain ⟨v, m₁, hr, hp⟩ := Run.mem_andThen.1 hp
    obtain ⟨hs, -⟩ := (Expr.eval_keeps hcall left m hi hf).of_ok hr
    rw [eq_of_mem_rightPart hp]
    exact ⟨hs, hf.later hs⟩

theorem stmtParts_lawful {frame : Frame} (hi : L.inv m.heap) (hf : L.Fits m.heap frame) (s : Stmt) :
    ∀ p ∈ stmtParts limit frame m s, Lawful L m.heap p := by
  have hcall := Run.call_keeps (L := L) limit
  have hhere : ∀ e, Lawful L m.heap ⟨.eval frame e, m⟩ := fun _ => ⟨.refl hi, hf⟩
  intro p hp
  cases s with
  | bind x value => exact lawful_of_mem_singleton (hhere _) hp
  | raise value => exact lawful_of_mem_singleton (hhere _) hp
  | expr value => exact lawful_of_mem_singleton (hhere _) hp
  | function x params body doc =>
    rw [List.mem_singleton.1 hp]
    exact ⟨.refl hi, hf⟩
  | assign target value =>
    rcases List.mem_cons.1 hp with rfl | hp
    · exact hhere _
    obtain ⟨v, m₁, hr, hp⟩ := Run.mem_andThen.1 hp
    obtain ⟨hs, hv⟩ := (Expr.eval_keeps hcall value m hi hf).of_ok hr
    rw [List.mem_singleton.1 hp]
    exact ⟨hs, hf.later hs, hv⟩
  | classDef x bases body doc =>
    rcases List.mem_cons.1 hp with rfl | hp
    · exact ⟨.refl hi, hf⟩
    obtain ⟨cs, m₁, hr, hp⟩ := Run.mem_andThen.1 hp
    obtain ⟨hs, -⟩ := (Run.basesOf_keeps hcall x bases m hi hf).of_ok hr
    rw [List.mem_singleton.1 hp]
    exact ⟨hs, (hf.later hs).classBody doc⟩
  | leave value =>
    cases value with
    | none => cases hp
    | some e =>
      simp only [stmtParts] at hp
      split at hp
      · exact lawful_of_mem_singleton (hhere _) hp
      · cases hp
  | branch cond whenTrue whenFalse =>
    rcases List.mem_cons.1 hp with rfl | hp
    · exact hhere _
    obtain ⟨v, m₁, hr, hp⟩ := Run.mem_andThen.1 hp
    obtain ⟨hs, -⟩ := (Expr.eval_keeps hcall cond m hi hf).of_ok hr
    rw [List.mem_singleton.1 hp]
    exact ⟨hs, hf.later hs⟩

theorem callParts_lawful {callee : Value} {args : List Value} (n : Nat) (hi : L.inv m.heap)
    (hc : L.val m.heap callee) (ha : ∀ v ∈ args, L.val m.heap v) :
    ∀ p ∈ callParts n args m callee, Lawful L m.heap p := by
  intro p hp
  cases callee with
  | function f =>
    rw [List.mem_singleton.1 hp]
    exact ⟨.refl hi, hc, ha⟩
  | method r =>
    have hr := L.refs hi hc
    rw [List.mem_singleton.1 hp]
    refine ⟨.refl hi, hr _ (List.mem_cons_of_mem _ (List.mem_cons_self ..)), fun v hv => ?_⟩
    rcases List.mem_cons.1 hv with rfl | hv
    · exact hr _ (List.mem_cons_self ..)
    · exact ha v hv
  | type c =>
    obtain ⟨h₁, h₂, h₃⟩ := L.newInstance hi hc
    have hs : L.Stays m.heap (m.heap.newInstance c).2 := ⟨h₁, h₂⟩
    have hinit : ∀ v, m.heap.lookup c "init" = some v → L.val (m.heap.newInstance c).2 v :=
      fun v hv => Law.val_later hs (Law.lookup_holds hi hc hv)
    unfold callParts at hp
    dsimp only at hp
    split at hp
    · rename_i f hf
      rw [List.mem_singleton.1 hp]
      refine ⟨hs, hinit _ hf, fun v hv => ?_⟩
      rcases List.mem_cons.1 hv with rfl | hv
      · exact h₃
      · exact Law.val_later hs (ha v hv)
    · rename_i v _ hv
      rw [List.mem_singleton.1 hp]
      exact ⟨hs, hinit v hv, Law.vals_later hs ha⟩
    · cases hp
  | _ => cases hp

theorem bodyPart_lawful {f : FunctionRef} {args : List Value} (hi : L.inv m.heap) (hf : L.val m.heap (.function f))
    (ha : ∀ v ∈ args, L.val m.heap v) : ∀ p ∈ bodyPart limit f args m, Lawful L m.heap p := by
  intro p hp
  unfold bodyPart at hp
  split at hp
  · cases hp
  dsimp only at hp
  split at hp
  · cases hp
  · rename_i locals hl
    have hr := L.refs hi hf
    rw [List.mem_singleton.1 hp]
    refine ⟨.refl hi, hr _ (List.mem_cons_self ..), fun h => (by cases h), fun v hv => ?_⟩
    rcases Run.mem_values_bindArguments hl hv with hv | hv | rfl
    · exact ha v hv
    · exact hr _ (List.mem_cons_of_mem _ (List.mem_map_of_mem (List.mem_append_left _ hv)))
    · exact L.scalar _ trivial

/-- A law that is kept up to an activity is kept up to each of its parts. -/
theorem parts_lawful {a : Activity} (hi : L.inv m.heap) (hf : a.Fits L m.heap) :
    ∀ p ∈ a.parts limit m, Lawful L m.heap p := by
  have hcall := Run.call_keeps (L := L) limit
  intro p hp
  cases a with
  | eval frame e => exact exprParts_lawful hi hf e p hp
  | run frame s => exact stmtParts_lawful hi hf s p hp
  | define frame name params body doc =>
    rw [List.mem_singleton.1 hp]
    exact ⟨.refl hi, hf⟩
  | invoke f args => exact bodyPart_lawful hi hf.1 hf.2 p hp
  | call n callee args =>
    cases n with
    | zero => cases hp
    | succ n => exact callParts_lawful n hi hf.1 hf.2 p hp
  | assign frame v target =>
    cases target with
    | attr object x =>
      rw [List.mem_singleton.1 hp]
      exact ⟨.refl hi, hf.1⟩
    | _ => cases hp
  | evalAll frame es =>
    cases es with
    | nil => cases hp
    | cons e es =>
      rcases List.mem_cons.1 hp with rfl | hp
      · exact ⟨.refl hi, hf⟩
      obtain ⟨v, m₁, hr, hp⟩ := Run.mem_andThen.1 hp
      obtain ⟨hs, -⟩ := (Expr.eval_keeps hcall e m hi hf).of_ok hr
      rw [List.mem_singleton.1 hp]
      exact ⟨hs, Law.Fits.later hf hs⟩
  | basesOf frame name es =>
    cases es with
    | nil => cases hp
    | cons e es =>
      rcases List.mem_cons.1 hp with rfl | hp
      · exact ⟨.refl hi, hf⟩
      obtain ⟨v, m₁, hr, hp⟩ := Run.mem_andThen.1 hp
      obtain ⟨hs, -⟩ := (Expr.eval_keeps hcall e m hi hf).of_ok hr
      split at hp
      · rw [List.mem_singleton.1 hp]
        exact ⟨hs, Law.Fits.later hf hs⟩
      · cases hp
  | runAll frame ss =>
    cases ss with
    | nil => cases hp
    | cons s ss =>
      rcases List.mem_cons.1 hp with rfl | hp
      · exact ⟨.refl hi, hf⟩
      obtain ⟨flow, m₁, hr, hp⟩ := Run.mem_andThen.1 hp
      obtain ⟨hs, hflow⟩ := (Stmt.run_keeps hcall s frame m hi hf).of_ok hr
      cases flow with
      | next frame' =>
        rw [List.mem_singleton.1 hp]
        exact ⟨hs, hflow⟩
      | leave v => cases hp

/-- A law is kept up to whatever begins in the course of an activity, and from there to its end. -/
theorem Happens.lawful {root p : Moment} (h : Happens limit root p) (hi : L.inv root.machine.heap)
    (hf : root.activity.Fits L root.machine.heap) :
    Lawful L root.machine.heap p ∧ L.Stays p.machine.heap (p.activity.final limit p.machine).heap := by
  have hp : Lawful L root.machine.heap p := by
    induction h with
    | start => exact ⟨.refl hi, hf⟩
    | part _ hq ih =>
      obtain ⟨hs, hfit⟩ := parts_lawful ih.1.1 ih.2 _ hq
      exact ⟨ih.1.trans hs, hfit⟩
  exact ⟨hp, final_keeps hp.1.1 hp.2⟩

end Activity

end LivePatch
