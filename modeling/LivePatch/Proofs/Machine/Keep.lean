/-
Running code keeps every law: builtin functions, expressions, statements, calls and units, each
however it ends. What a call does is a parameter of running, so the law is first proved along the
syntax tree for a caller that keeps it, and then for calls by the bound on their nesting.
-/
import LivePatch.Proofs.Machine.Law

namespace LivePatch

namespace Run

variable {L : Law} {m : Machine}

abbrev Val (L : Law) : Value → Heap → Prop := fun v h => L.val h v

abbrev Vals (L : Law) : List Value → Heap → Prop := fun vs h => ∀ v ∈ vs, L.val h v

/-- Calls keep the law when the callee and the arguments are of the law. -/
def CallerKeeps (L : Law) (call : Caller) : Prop :=
  ∀ (m : Machine) (f : Value) (args : List Value), L.inv m.heap → L.val m.heap f →
    (∀ v ∈ args, L.val m.heap v) → Keeps L m (call f args) (Val L)

theorem getAttr_keeps (hi : L.inv m.heap) {v : Value} (hv : L.val m.heap v) (x : Name) :
    Keeps L m (getAttr v x) (Val L) := by
  unfold getAttr
  refine keeps_read_bind ?_
  split
  · rename_i a ha
    obtain ⟨h₁, h₂⟩ := Law.obtain_stays hi (Law.attr_found hi hv ha)
    exact keeps_make h₁ h₂
  · exact keeps_read_bind (keeps_fail hi _)

theorem setAttr_keeps (hi : L.inv m.heap) {target v : Value} (ht : L.val m.heap target)
    (hv : L.val m.heap v) (x : Name) : Keeps L m (setAttr target x v) (fun _ _ => True) := by
  unfold Keeps setAttr
  cases hk : m.heap.setAttr? target x v with
  | none => exact Law.Stays.refl hi
  | some k => exact ⟨L.setAttr x hi ht hv hk, trivial⟩

end Run

/-! ## Builtin functions -/

namespace Builtin

variable {L : Law} {m : Machine}

theorem attrOr_keeps (hi : L.inv m.heap) {v : Value} (hv : L.val m.heap v) (x : Name)
    {default : Option Value} (hd : ∀ w, default = some w → L.val m.heap w) :
    Run.Keeps L m (attrOr v x default) (Run.Val L) := by
  unfold attrOr
  refine Run.keeps_read_bind ?_
  split
  · rename_i a ha
    obtain ⟨h₁, h₂⟩ := Law.obtain_stays hi (Law.attr_found hi hv ha)
    exact Run.keeps_make h₁ h₂
  · cases default with
    | some w => exact Run.keeps_pure hi (hd w rfl)
    | none => exact Run.keeps_read_bind (Run.keeps_fail hi _)

theorem lengthOf_keeps (hi : L.inv m.heap) (v : Value) :
    Run.Keeps L m (lengthOf v) (Run.Val L) := by
  unfold lengthOf
  split
  · exact Run.keeps_pure hi (L.scalar _ trivial)
  · exact Run.keeps_read_bind (Run.keeps_fail hi _)

theorem apply_keeps (hi : L.inv m.heap) (b : Builtin) {args : List Value}
    (ha : ∀ v ∈ args, L.val m.heap v) : Run.Keeps L m (b.apply args) (Run.Val L) := by
  unfold apply
  split
  · exact Run.keeps_fail hi _
  · split
    · exact Run.keeps_read_bind (Run.keeps_pure hi (L.scalar _ trivial))
    · exact lengthOf_keeps hi _
    · exact Run.keeps_read_bind (Run.keeps_pure hi (L.scalar _ trivial))
    · exact attrOr_keeps hi (ha _ (List.mem_cons_self ..)) _ (fun w hw => by cases hw)
    · refine attrOr_keeps hi (ha _ (List.mem_cons_self ..)) _ fun w hw => ?_
      cases hw
      exact ha _ (by simp)
    · exact Run.keeps_read_bind (Run.keeps_pure hi (L.scalar _ trivial))
    · exact Run.keeps_fail hi _
    · exact Run.keeps_read_bind (Run.keeps_pure hi (L.scalar _ trivial))
    · exact Run.keeps_fail hi _

end Builtin

/-! ## Frames -/

/-- The values that a frame has bound for itself. -/
def Frame.values (frame : Frame) : List Value :=
  match frame.locals with
  | .module => []
  | .function b | .classBody b => b.values

theorem Frame.mem_values_of_local? {frame : Frame} {x : Name} {v : Value}
    (h : frame.local? x = some v) : v ∈ frame.values := by
  obtain ⟨globals, module, locals⟩ := frame
  cases locals with
  | module => cases h
  | function b | classBody b => exact Bindings.mem_values_of_get? h

/-- A frame of the law: it looks for names where the law lets it, binds names where the law lets it,
and has bound values of the law only. -/
structure Law.Fits (L : Law) (h : Heap) (frame : Frame) : Prop where
  globals : L.holds h (.scope frame.globals)
  binds : frame.locals = .module → L.binds frame.globals
  values : ∀ v ∈ frame.values, L.val h v

/-- A statement ends with a frame of the law, or with a value of the law. -/
def Law.Ends (L : Law) : Flow → Heap → Prop
  | .next frame, h => L.Fits h frame
  | .leave v, h => L.val h v

namespace Law.Fits

variable {L : Law} {h k : Heap} {frame : Frame}

theorem later (hf : L.Fits h frame) (hs : L.Stays h k) : L.Fits k frame :=
  ⟨L.later hs.2 hf.globals, hf.binds, vals_later hs hf.values⟩

theorem lookup (hi : L.inv h) (hf : L.Fits h frame) {x : Name} {v : Value}
    (hx : frame.lookup? h x = some v) : L.val h v := by
  unfold Frame.lookup? at hx
  split at hx
  · rename_i w hw
    cases hx
    exact hf.values v (Frame.mem_values_of_local? hw)
  · split at hx
    · rename_i w hw
      cases hx
      exact bound_holds (fun _ hu => L.refs hi hf.globals _ (List.mem_map_of_mem hu)) hw
    · obtain ⟨b, -, rfl⟩ := Option.map_eq_some_iff.1 hx
      exact L.scalar h trivial

theorem bind {m : Machine} (hi : L.inv m.heap) (hf : L.Fits m.heap frame) (x : Name) {v : Value}
    (hv : L.val m.heap v) : Run.Keeps L m (frame.bind x v) (fun frame h => L.Fits h frame) := by
  unfold Frame.bind
  have hins : ∀ b : Bindings Value, frame.values = b.values →
      ∀ w ∈ (b.insert x v).values, L.val m.heap w := by
    intro b hb w hw
    rcases Bindings.mem_values_insert hw with rfl | hw
    · exact hv
    · exact hf.values w (hb ▸ hw)
  split
  · rename_i hl
    have hs := L.bindName x hi (hf.binds hl) hv
    exact ⟨hs, hf.later hs⟩
  · rename_i b hl
    refine Run.keeps_pure hi ⟨hf.globals, fun h => (by cases h), hins b ?_⟩
    unfold Frame.values; rw [hl]
  · rename_i b hl
    refine Run.keeps_pure hi ⟨hf.globals, fun h => (by cases h), hins b ?_⟩
    unfold Frame.values; rw [hl]

theorem classBody (hf : L.Fits h frame) (doc : Option String) :
    L.Fits h { frame with locals := .classBody (Run.initialAttrs frame.module doc) } := by
  refine ⟨hf.globals, fun h => (by cases h), fun v hv => ?_⟩
  rcases Bindings.mem_values_insert hv with rfl | hv
  · cases doc <;> exact L.scalar h trivial
  · rcases Bindings.mem_values_insert hv with rfl | hv
    · exact L.scalar h trivial
    · cases hv

theorem attrs (hf : L.Fits h frame) : ∀ v ∈ frame.attrs.values, L.val h v := by
  intro v hv
  refine hf.values v ?_
  obtain ⟨globals, module, locals⟩ := frame
  cases locals with
  | classBody b => exact hv
  | module | function b => cases hv

end Law.Fits

/-! ## Expressions -/

namespace Run

variable {L : Law} {m : Machine}

theorem operate_keeps (hi : L.inv m.heap) {f : Heap → Except RunError Value}
    (hf : ∀ v, f m.heap = .ok v → v.IsScalar) : Keeps L m (operate f) (Val L) := by
  unfold operate
  refine keeps_read_bind ?_
  split
  · rename_i v hv
    exact keeps_pure hi (L.scalar _ (hf v hv))
  · exact keeps_fail hi _

end Run

namespace Operator

theorem exact_isScalar {op : String} {n : Int} {v : Value} (h : exact op n = .ok v) : v.IsScalar := by
  unfold exact at h
  split at h <;> cases h
  trivial

theorem onInts_isScalar {op : BinaryOp} {a b : Int} {r : Except RunError Value}
    (h : onInts? op a b = some r) {v : Value} (hv : r = .ok v) : v.IsScalar := by
  subst hv
  cases op <;> simp only [onInts?, Option.some.injEq, reduceCtorEq] at h
  case add | sub | mul => exact exact_isScalar h
  case div => split at h <;> first | cases h | exact exact_isScalar h
  case mod => (repeat' split at h) <;> first | cases h | exact exact_isScalar h
  all_goals cases h; trivial

theorem onTexts_isScalar {op : BinaryOp} {a b : String} {v : Value} (h : onTexts? op a b = some v) :
    v.IsScalar := by
  cases op <;> simp only [onTexts?, Option.some.injEq, reduceCtorEq] at h <;> subst h <;> trivial

theorem binary_isScalar {op : BinaryOp} {l r : Value} {h : Heap} {v : Value}
    (hv : binary op l r h = .ok v) : v.IsScalar := by
  unfold binary at hv
  split at hv
  · cases hv; trivial
  · cases hv; trivial
  · split at hv
    · rename_i a b
      cases ho : onInts? op a.toInt b.toInt with
      | none => rw [ho] at hv; cases hv
      | some r => rw [ho] at hv; exact onInts_isScalar ho hv
    · split at hv
      · rename_i ho
        cases hv
        exact onTexts_isScalar ho
      · cases hv
    · cases hv

theorem unary_isScalar {op : UnaryOp} {w : Value} {h : Heap} {v : Value}
    (hv : unary op w h = .ok v) : v.IsScalar := by
  unfold unary at hv
  split at hv
  · cases hv; trivial
  · split at hv
    · exact exact_isScalar hv
    · cases hv

end Operator

section

variable {L : Law} {call : Caller} {frame : Frame}

namespace Run

theorem valueOfName_keeps {m : Machine} (hi : L.inv m.heap) (hf : L.Fits m.heap frame) (x : Name) :
    Keeps L m (valueOfName frame x) (Val L) := by
  unfold valueOfName
  refine keeps_read_bind ?_
  split
  · rename_i v hv
    exact keeps_pure hi (hf.lookup hi hv)
  · exact keeps_fail hi _

end Run

mutual

theorem Expr.eval_keeps (hcall : Run.CallerKeeps L call) : ∀ (e : Expr) (m : Machine),
    L.inv m.heap → L.Fits m.heap frame → Run.Keeps L m (e.eval call frame) (Run.Val L)
  | .int n _, m, hi, _ => by rw [Expr.eval]; exact Run.keeps_pure hi (L.scalar _ trivial)
  | .str t _, m, hi, _ => by rw [Expr.eval]; exact Run.keeps_pure hi (L.scalar _ trivial)
  | .bool b _, m, hi, _ => by rw [Expr.eval]; exact Run.keeps_pure hi (L.scalar _ trivial)
  | .none _, m, hi, _ => by rw [Expr.eval]; exact Run.keeps_pure hi (L.scalar _ trivial)
  | .ident x _, m, hi, hf => by rw [Expr.eval]; exact Run.valueOfName_keeps hi hf x
  | .attr object x _, m, hi, hf => by
    rw [Expr.eval]
    refine Run.keeps_bind (Expr.eval_keeps hcall object m hi hf) fun v m₁ hs hv => ?_
    exact Run.getAttr_keeps hs.1 hv x
  | .call callee args _, m, hi, hf => by
    rw [Expr.eval]
    refine Run.keeps_bind (Expr.eval_keeps hcall callee m hi hf) fun f m₁ hs hv => ?_
    refine Run.keeps_bind (Expr.evalAll_keeps hcall args m₁ hs.1 (hf.later hs)) fun vs m₂ hs₂ hvs => ?_
    exact hcall m₂ f vs hs₂.1 (Law.val_later hs₂ hv) hvs
  | .binary op left right _, m, hi, hf => by
    rw [Expr.eval]
    refine Run.keeps_bind (Expr.eval_keeps hcall left m hi hf) fun v m₁ hs hv => ?_
    have hright := Expr.eval_keeps hcall right m₁ hs.1 (hf.later hs)
    split
    · split
      · exact hright
      · exact Run.keeps_pure hs.1 hv
    · split
      · exact Run.keeps_pure hs.1 hv
      · exact hright
    · refine Run.keeps_bind hright fun w m₂ hs₂ _ => ?_
      exact Run.operate_keeps hs₂.1 fun _ h => Operator.binary_isScalar h
  | .unary op operand _, m, hi, hf => by
    rw [Expr.eval]
    refine Run.keeps_bind (Expr.eval_keeps hcall operand m hi hf) fun v m₁ hs _ => ?_
    exact Run.operate_keeps hs.1 fun _ h => Operator.unary_isScalar h

theorem Expr.evalAll_keeps (hcall : Run.CallerKeeps L call) : ∀ (es : List Expr) (m : Machine),
    L.inv m.heap → L.Fits m.heap frame → Run.Keeps L m (Expr.evalAll call frame es) (Run.Vals L)
  | [], m, hi, _ => by rw [Expr.evalAll]; exact Run.keeps_pure hi fun v hv => by cases hv
  | e :: es, m, hi, hf => by
    rw [Expr.evalAll]
    refine Run.keeps_bind (Expr.eval_keeps hcall e m hi hf) fun v m₁ hs hv => ?_
    refine Run.keeps_bind (Expr.evalAll_keeps hcall es m₁ hs.1 (hf.later hs)) fun vs m₂ hs₂ hvs => ?_
    refine Run.keeps_pure hs₂.1 fun w hw => ?_
    rcases List.mem_cons.1 hw with rfl | hw
    · exact Law.val_later hs₂ hv
    · exact hvs w hw

end

/-! ## Statements -/

namespace Run

theorem basesOf_keeps (hcall : CallerKeeps L call) (name : Name) : ∀ (es : List Expr) (m : Machine),
    L.inv m.heap → L.Fits m.heap frame →
      Keeps L m (basesOf call frame name es) (fun cs h => ∀ c ∈ cs, L.val h (.type c))
  | [], m, hi, _ => by rw [basesOf]; exact keeps_pure hi fun c hc => by cases hc
  | e :: es, m, hi, hf => by
    rw [basesOf]
    refine keeps_bind (Expr.eval_keeps hcall e m hi hf) fun v m₁ hs hv => ?_
    split
    · rename_i c
      refine keeps_bind (basesOf_keeps hcall name es m₁ hs.1 (hf.later hs)) fun cs m₂ hs₂ hcs => ?_
      refine keeps_pure hs₂.1 fun d hd => ?_
      rcases List.mem_cons.1 hd with rfl | hd
      · exact Law.val_later hs₂ hv
      · exact hcs d hd
    · exact keeps_read_bind (keeps_fail hs.1 _)

theorem defineFunction_keeps (hcall : CallerKeeps L call) {m : Machine} (hi : L.inv m.heap)
    (hf : L.Fits m.heap frame) (name : Name) (params : List Param) (body : List Stmt)
    (doc : Option String) :
    Keeps L m (defineFunction call frame name params body doc) (fun f h => L.val h (.function f)) := by
  unfold defineFunction
  refine keeps_bind (Expr.evalAll_keeps hcall _ m hi hf) fun defaults m₁ hs hds => ?_
  have ho : ∀ b ∈ (FunctionObject.mk name frame.module frame.globals
      ⟨doc, .empty, ⟨params.map (·.name), body⟩, defaults⟩).refs, L.holds m₁.heap b := by
    intro b hb
    rcases List.mem_cons.1 hb with rfl | hb
    · exact (hf.later hs).globals
    · obtain ⟨v, hv, rfl⟩ := List.mem_map.1 hb
      rcases List.mem_append.1 hv with hv | hv
      · exact hds v hv
      · cases hv
  obtain ⟨h₁, h₂, h₃⟩ := L.newFunction hs.1 ho
  exact keeps_make ⟨h₁, h₂⟩ h₃

theorem assign_keeps (hcall : CallerKeeps L call) {m : Machine} (hi : L.inv m.heap)
    (hf : L.Fits m.heap frame) {v : Value} (hv : L.val m.heap v) (target : Expr) :
    Keeps L m (assign call frame v target) (fun frame h => L.Fits h frame) := by
  unfold assign
  split
  · exact hf.bind hi _ hv
  · rename_i object x _
    refine keeps_bind (Expr.eval_keeps hcall object m hi hf) fun o m₁ hs ho => ?_
    refine keeps_bind (setAttr_keeps hs.1 ho (Law.val_later hs hv) x) fun _ m₂ hs₂ _ => ?_
    exact keeps_pure hs₂.1 (hf.later (hs.trans hs₂))
  · exact keeps_pure hi hf

end Run

mutual

theorem Stmt.run_keeps (hcall : Run.CallerKeeps L call) : ∀ (s : Stmt) (frame : Frame) (m : Machine),
    L.inv m.heap → L.Fits m.heap frame → Run.Keeps L m (s.run call frame) L.Ends
  | .bind x value _, frame, m, hi, hf => by
    rw [Stmt.run]
    refine Run.keeps_bind (Expr.eval_keeps hcall value m hi hf) fun v m₁ hs hv => ?_
    refine Run.keeps_bind ((hf.later hs).bind hs.1 x hv) fun frame' m₂ hs₂ hf' => ?_
    exact Run.keeps_pure hs₂.1 hf'
  | .assign target value _, frame, m, hi, hf => by
    rw [Stmt.run]
    refine Run.keeps_bind (Expr.eval_keeps hcall value m hi hf) fun v m₁ hs hv => ?_
    refine Run.keeps_bind (Run.assign_keeps hcall hs.1 (hf.later hs) hv target) fun frame' m₂ hs₂ hf' => ?_
    exact Run.keeps_pure hs₂.1 hf'
  | .function x params body doc _, frame, m, hi, hf => by
    rw [Stmt.run]
    refine Run.keeps_bind (Run.defineFunction_keeps hcall hi hf x params body doc) fun f m₁ hs hv => ?_
    refine Run.keeps_bind ((hf.later hs).bind hs.1 x hv) fun frame' m₂ hs₂ hf' => ?_
    exact Run.keeps_pure hs₂.1 hf'
  | .classDef x bases body doc _, frame, m, hi, hf => by
    rw [Stmt.run]
    refine Run.keeps_bind (Run.basesOf_keeps hcall x bases m hi hf) fun cs m₁ hs hcs => ?_
    have hf₁ := hf.later hs
    -- the body runs in a frame of its own, which is left behind with the attributes of the class
    refine Run.keeps_bind (Stmt.runAll_keeps hcall body _ m₁ hs.1 (hf₁.classBody doc))
      fun flow m₂ hs₂ hflow => ?_
    cases flow with
    | leave v => exact Run.keeps_fail hs₂.1 _
    | next last =>
      have ho : ∀ b ∈ (ClassObject.mk x cs last.attrs).refs, L.holds m₂.heap b := by
        intro b hb
        rcases List.mem_append.1 hb with hb | hb
        · obtain ⟨c, hc, rfl⟩ := List.mem_map.1 hb
          exact Law.val_later hs₂ (hcs c hc)
        · obtain ⟨v, hv, rfl⟩ := List.mem_map.1 hb
          exact Law.Fits.attrs hflow v hv
      obtain ⟨h₁, h₂, h₃⟩ := L.newClass hs₂.1 ho
      refine Run.keeps_bind (Run.keeps_make (Q := fun c h => L.val h (.type c)) ⟨h₁, h₂⟩ h₃)
        fun c m₃ hs₃ hc => ?_
      refine Run.keeps_bind ((hf₁.later (hs₂.trans hs₃)).bind hs₃.1 x hc) fun frame' m₄ hs₄ hf' => ?_
      exact Run.keeps_pure hs₄.1 hf'
  | .leave (some e) _, frame, m, hi, hf => by
    rw [Stmt.run]
    split
    · refine Run.keeps_bind (Expr.eval_keeps hcall e m hi hf) fun v m₁ hs hv => ?_
      exact Run.keeps_pure hs.1 hv
    · exact Run.keeps_fail hi _
  | .leave none _, frame, m, hi, hf => by
    rw [Stmt.run]
    split
    · exact Run.keeps_pure hi (L.scalar _ trivial)
    · exact Run.keeps_fail hi _
  | .raise value _, frame, m, hi, hf => by
    rw [Stmt.run]
    refine Run.keeps_bind (Expr.eval_keeps hcall value m hi hf) fun v m₁ hs _ => ?_
    exact Run.keeps_read_bind (Run.keeps_fail hs.1 _)
  | .branch cond whenTrue whenFalse _, frame, m, hi, hf => by
    rw [Stmt.run]
    refine Run.keeps_bind (Expr.eval_keeps hcall cond m hi hf) fun v m₁ hs _ => ?_
    split
    · exact Stmt.runAll_keeps hcall whenTrue frame m₁ hs.1 (hf.later hs)
    · exact Stmt.runAll_keeps hcall whenFalse frame m₁ hs.1 (hf.later hs)
  | .expr value, frame, m, hi, hf => by
    rw [Stmt.run]
    refine Run.keeps_bind (Expr.eval_keeps hcall value m hi hf) fun v m₁ hs _ => ?_
    exact Run.keeps_pure hs.1 (hf.later hs)

theorem Stmt.runAll_keeps (hcall : Run.CallerKeeps L call) : ∀ (ss : List Stmt) (frame : Frame)
    (m : Machine), L.inv m.heap → L.Fits m.heap frame →
      Run.Keeps L m (Stmt.runAll call frame ss) L.Ends
  | [], frame, m, hi, hf => by rw [Stmt.runAll]; exact Run.keeps_pure hi hf
  | s :: ss, frame, m, hi, hf => by
    rw [Stmt.runAll]
    refine Run.keeps_bind (Stmt.run_keeps hcall s frame m hi hf) fun flow m₁ hs hflow => ?_
    cases flow with
    | leave v => exact Run.keeps_pure hs.1 hflow
    | next frame' => exact Stmt.runAll_keeps hcall ss frame' m₁ hs.1 hflow

end

end

/-! ## Calls -/

namespace Run

variable {L : Law}

theorem mem_values_bindParams {w : Value} : ∀ (xs : List Name) (vs ds : List Value) (b : Bindings Value),
    w ∈ (bindParams xs vs ds b).values → w ∈ b.values ∨ w ∈ vs ∨ w ∈ ds ∨ w = .none
  | [], _, _, b, h => .inl h
  | x :: xs, v :: vs, ds, b, h => by
    rcases mem_values_bindParams xs vs ds _ h with h | h | h
    · rcases Bindings.mem_values_insert h with rfl | h
      · exact .inr (.inl (List.mem_cons_self ..))
      · exact .inl h
    · exact .inr (.inl (List.mem_cons_of_mem _ h))
    · exact .inr (.inr h)
  | x :: xs, [], d :: ds, b, h => by
    rcases mem_values_bindParams xs [] ds _ h with h | h | h | h
    · rcases Bindings.mem_values_insert h with rfl | h
      · exact .inr (.inr (.inl (List.mem_cons_self ..)))
      · exact .inl h
    · cases h
    · exact .inr (.inr (.inl (List.mem_cons_of_mem _ h)))
    · exact .inr (.inr (.inr h))
  | x :: xs, [], [], b, h => by
    rcases mem_values_bindParams xs [] [] _ h with h | h
    · rcases Bindings.mem_values_insert h with rfl | h
      · exact .inr (.inr (.inr rfl))
      · exact .inl h
    · exact .inr h

theorem mem_values_bindArguments {x : Name} {params : List Name} {ds vs : List Value}
    {b : Bindings Value} (h : bindArguments x params ds vs = .ok b) {w : Value} (hw : w ∈ b.values) :
    w ∈ vs ∨ w ∈ ds ∨ w = .none := by
  unfold bindArguments at h
  simp only at h
  split at h
  · cases h
  · cases h
    rcases mem_values_bindParams _ _ _ _ hw with hw | hw | hw | hw
    · cases hw
    · exact .inl hw
    · exact .inr (.inl (List.mem_of_mem_drop hw))
    · exact .inr (.inr hw)

/-- Running the bodies of functions keeps the law when function and arguments are of the law. -/
def InvokerKeeps (L : Law) (invoke : Invoker) : Prop :=
  ∀ (m : Machine) (f : FunctionRef) (args : List Value), L.inv m.heap → L.val m.heap (.function f) →
    (∀ v ∈ args, L.val m.heap v) → Keeps L m (invoke f args) (Val L)

theorem callWithin_keeps {invoke : Invoker} (hinv : InvokerKeeps L invoke) :
    ∀ n, CallerKeeps L (callWithin invoke n)
  | 0, m, f, args, hi, _, _ => by rw [callWithin]; exact keeps_throw hi _
  | n + 1, m, callee, args, hi, hc, ha => by
    unfold callWithin
    cases callee with
    | builtin b => exact Builtin.apply_keeps hi b ha
    | function f => exact hinv m f args hi hc ha
    | method r =>
      refine keeps_read_bind ?_
      have hr := L.refs hi hc
      refine hinv m _ _ hi (hr _ (List.mem_cons_of_mem _ (List.mem_cons_self ..))) fun v hv => ?_
      rcases List.mem_cons.1 hv with rfl | hv
      · exact hr _ (List.mem_cons_self ..)
      · exact ha v hv
    | type c =>
      -- the instance is there before it is known whether the class can be called
      obtain ⟨h₁, h₂, h₃⟩ := L.newInstance hi hc
      refine keeps_bind (keeps_make (Q := fun o h => L.val h (.object o)) ⟨h₁, h₂⟩ h₃)
        fun o m₁ hs ho => ?_
      have hc := Law.val_later hs hc
      have ha := Law.vals_later hs ha
      refine keeps_read_bind ?_
      split
      · rename_i f hf
        refine keeps_bind (hinv m₁ f _ hs.1 (Law.lookup_holds hs.1 hc hf) fun v hv => ?_)
          fun _ m₂ hs₂ _ => keeps_pure hs₂.1 (Law.val_later hs₂ ho)
        rcases List.mem_cons.1 hv with rfl | hv
        · exact ho
        · exact ha v hv
      · -- whatever else stands in the place of the initialiser is called without the instance
        rename_i v _ hv
        refine keeps_bind (callWithin_keeps hinv n m₁ v args hs.1 (Law.lookup_holds hs.1 hc hv) ha)
          fun _ m₂ hs₂ _ => keeps_pure hs₂.1 (Law.val_later hs₂ ho)
      · split
        · exact keeps_pure hs.1 ho
        · exact keeps_read_bind (keeps_fail hs.1 _)
    | _ => exact keeps_read_bind (keeps_fail hi _)

theorem callBy_keeps {invoke : Invoker} (hinv : InvokerKeeps L invoke) : CallerKeeps L (callBy invoke) := by
  intro m f args hi hf ha
  unfold callBy
  exact keeps_read_bind (callWithin_keeps hinv _ m f args hi hf ha)

theorem invokeWithin_keeps (limit : Nat) : ∀ n, InvokerKeeps L (invokeWithin limit n)
  | 0, m, f, args, hi, _, _ => by rw [invokeWithin]; exact keeps_throw hi _
  | n + 1, m, f, args, hi, hf, ha => by
    rw [invokeWithin]
    show Keeps L m (if limit ≤ m.depth then _ else _) _
    split
    · exact keeps_fail hi _
    · refine keeps_read_bind ?_
      have hr := L.refs hi hf
      split
      · exact keeps_fail hi _
      · rename_i locals hl
        -- the frame of the call has the function's namespace, and arguments and defaults
        have hfit : L.Fits m.heap ⟨(m.heap.function f).globals, (m.heap.function f).module,
            .function locals⟩ := by
          refine ⟨hr _ (List.mem_cons_self ..), fun h => (by cases h), fun v hv => ?_⟩
          rcases mem_values_bindArguments hl hv with hv | hv | rfl
          · exact ha v hv
          · exact hr _ (List.mem_cons_of_mem _ (List.mem_map_of_mem (List.mem_append_left _ hv)))
          · exact L.scalar _ trivial
        refine keeps_bind (keeps_deeper (Stmt.runAll_keeps (callBy_keeps (invokeWithin_keeps limit n))
          _ _ _ hi hfit)) fun flow m₁ hs hflow => ?_
        cases flow with
        | leave v => exact keeps_pure hs.1 hflow
        | next frame => exact keeps_pure hs.1 (L.scalar _ trivial)

theorem invoke_keeps (limit : Nat) : InvokerKeeps L (invoke limit) :=
  fun m f args hi hf ha => invokeWithin_keeps limit _ m f args hi hf ha

/-- Calls keep every law. -/
theorem call_keeps (limit : Nat) : CallerKeeps L (call limit) := callBy_keeps (invoke_keeps limit)

end Run

/-- Units keep every law that lets them bind names in their namespace. -/
theorem CodeUnit.run_keeps {L : Law} {m : Machine} (hi : L.inv m.heap) (limit : Nat) (u : CodeUnit)
    {globals : ScopeRef} (hg : L.holds m.heap (.scope globals)) (hb : L.binds globals) (module : Name) :
    Run.Keeps L m (u.run limit globals module) (fun _ _ => True) := by
  unfold CodeUnit.run
  have hfit : L.Fits m.heap ⟨globals, module, .module⟩ :=
    ⟨hg, fun _ => hb, fun v hv => by cases hv⟩
  refine Run.keeps_bind (Stmt.runAll_keeps (Run.call_keeps limit) _ _ m hi hfit) fun flow m₁ hs _ => ?_
  cases flow with
  | next frame => exact Run.keeps_pure hs.1 trivial
  | leave v => exact Run.keeps_fail hs.1 _

end LivePatch
