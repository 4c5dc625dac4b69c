/-
What is assigned to. An assignment to an expression that is neither a name nor an attribute does nothing,
and no code that can be written down has one. To say that no run comes to such an assignment, running is
taken over once more with the choice of what it does left open: code that can be written down runs the
same for every choice, on every heap whose functions all have such code, and leaves a heap of this kind.
-/
import LivePatch.Machine.Call
import LivePatch.Proofs.Heap.Persist
import LivePatch.Proofs.Machine.Law
import LivePatch.Proofs.Sequence
import LivePatch.Syntax.Spelling

namespace LivePatch

/-- What becomes of a value that is assigned to an expression which is no target. -/
abbrev OtherTarget := Frame → Value → Expr → Run Frame

/-- Assigns a value. A target that is neither a name nor an attribute is left to `other`. -/
def Run.assignElse (other : OtherTarget) (call : Caller) (frame : Frame) (v : Value) (target : Expr) :
    Run Frame :=
  if target.isTarget then assign call frame v target else other frame v target

mutual

/-- Runs a statement, where an assignment to an expression that is no target does what `other` says. -/
def Stmt.runElse (other : OtherTarget) (call : Caller) (frame : Frame) : Stmt → Run Flow
  | .assign target value _ => do
    let v ← value.eval call frame
    return .next (← Run.assignElse other call frame v target)
  | .classDef x bases body doc _ => do
    let cs ← Run.basesOf call frame x bases
    let inner := { frame with locals := .classBody (Run.initialAttrs frame.module doc) }
    match ← Stmt.runAllElse other call inner body with
    | .leave _ => Run.fail .returnOutsideFunction
    | .next last =>
      let c ← Run.make (·.newClass ⟨x, cs, last.attrs⟩)
      return .next (← frame.bind x (.type c))
  | .branch cond whenTrue whenFalse _ => do
    let v ← cond.eval call frame
    if v.isTruthy then Stmt.runAllElse other call frame whenTrue
    else Stmt.runAllElse other call frame whenFalse
  | s => s.run call frame

/-- Runs some statements in order in the same way. -/
def Stmt.runAllElse (other : OtherTarget) (call : Caller) (frame : Frame) : List Stmt → Run Flow
  | [] => return .next frame
  | s :: ss => do
    match ← s.runElse other call frame with
    | .next frame => Stmt.runAllElse other call frame ss
    | .leave v => return .leave v

end

namespace Run

/-- Runs the body of a function in the same way. -/
def invokeWithinElse (other : OtherTarget) (limit : Nat) : Nat → Invoker
  | 0, _, _ => throw .divergence
  | n + 1, f, args => do
    if limit ≤ (← depth) then fail (.recursionLimit limit) else
    let o ← read (·.function f)
    match bindArguments o.name o.state.code.params o.state.defaults args with
    | .error e => fail e
    | .ok locals =>
      let frame : Frame := ⟨o.globals, o.module, .function locals⟩
      match ← deeper (Stmt.runAllElse other (callBy (invokeWithinElse other limit n)) frame o.state.code.body) with
      | .leave v => return v
      | .next _ => return .none

/-- Calls any value in the same way. -/
def callElse (other : OtherTarget) (limit : Nat) : Caller := callBy fun f args => do
  let d ← depth
  invokeWithinElse other limit (limit - d + 1) f args

end Run

/-- Runs the statements of a unit in the same way. -/
def CodeUnit.runElse (other : OtherTarget) (limit : Nat) (u : CodeUnit) (globals : ScopeRef)
    (module : Name) : Run Unit := do
  match ← Stmt.runAllElse other (Run.callElse other limit) ⟨globals, module, .module⟩ u.body with
  | .next _ => return ()
  | .leave _ => Run.fail .returnOutsideFunction

/-! ## Doing nothing

Running is the case in which such an assignment does nothing. -/

theorem Run.assignElse_pure (call : Caller) (frame : Frame) (v : Value) (target : Expr) :
    assignElse (fun frame _ _ => pure frame) call frame v target = assign call frame v target := by
  cases target <;> rfl

mutual

theorem Stmt.runElse_pure (call : Caller) : ∀ (s : Stmt) (frame : Frame),
    s.runElse (fun frame _ _ => pure frame) call frame = s.run call frame
  | .assign target value _, frame => by
    simp only [Stmt.runElse, Stmt.run, Run.assignElse_pure]
  | .classDef x bases body doc _, frame => by
    simp only [Stmt.runElse, Stmt.runAllElse_pure call body]
    rfl
  | .branch cond whenTrue whenFalse _, frame => by
    simp only [Stmt.runElse, Stmt.run, Stmt.runAllElse_pure call whenTrue, Stmt.runAllElse_pure call whenFalse]
  | .bind .., frame | .function .., frame | .leave .., frame | .raise .., frame | .expr .., frame => by
    simp only [Stmt.runElse]

theorem Stmt.runAllElse_pure (call : Caller) : ∀ (ss : List Stmt) (frame : Frame),
    Stmt.runAllElse (fun frame _ _ => pure frame) call frame ss = Stmt.runAll call frame ss
  | [], frame => by simp only [Stmt.runAllElse, Stmt.runAll]
  | s :: ss, frame => by
    simp only [Stmt.runAllElse, Stmt.runAll, Stmt.runElse_pure call s]
    congr; funext flow
    cases flow with
    | next frame' => exact Stmt.runAllElse_pure call ss frame'
    | leave v => rfl

end

namespace Run

theorem invokeWithinElse_pure (limit : Nat) : ∀ n : Nat,
    invokeWithinElse (fun frame _ _ => pure frame) limit n = invokeWithin limit n
  | 0 => rfl
  | n + 1 => by
    funext f args
    simp only [invokeWithinElse, invokeWithinElse_pure limit n, Stmt.runAllElse_pure]
    rfl

theorem callElse_pure (limit : Nat) : callElse (fun frame _ _ => pure frame) limit = call limit := by
  unfold callElse call invoke
  simp only [invokeWithinElse_pure]

end Run

theorem CodeUnit.runElse_pure (limit : Nat) (u : CodeUnit) (globals : ScopeRef) (module : Name) :
    u.runElse (fun frame _ _ => pure frame) limit globals module = u.run limit globals module := by
  unfold runElse
  simp only [Run.callElse_pure, Stmt.runAllElse_pure]
  rfl

/-! ## Code on the heap -/

namespace Heap

/-- The code of every function can be written down. -/
def CodeWellFormed (h : Heap) : Prop :=
  ∀ f : FunctionRef, Stmt.allWellFormed (h.function f).state.code.body = true

/-- The functions have the code that they had, and there is no new one. -/
def SameCode (h k : Heap) : Prop := ∀ f : FunctionRef, (k.function f).state.code = (h.function f).state.code

variable {h k l : Heap}

theorem SameCode.trans (a : h.SameCode k) (b : k.SameCode l) : h.SameCode l := fun f => (b f).trans (a f)

theorem SameCode.of_functions (he : k.functions = h.functions) : h.SameCode k :=
  fun f => congrArg (fun a => (a.get f).state.code) he

theorem sameCode_obtain (h : Heap) (a : Attribute) : h.SameCode (h.obtain a).2 := by
  cases a <;> exact .of_functions rfl

namespace CodeWellFormed

theorem empty : Heap.empty.CodeWellFormed := fun f => by
  show Stmt.allWellFormed ((default : Arena .function FunctionObject).get f).state.code.body = true
  rw [(default : Arena .function FunctionObject).get_of_size_le (Nat.zero_le _)]
  rfl

theorem of_sameCode (hh : h.CodeWellFormed) (hk : h.SameCode k) : k.CodeWellFormed := fun f => by
  rw [hk f]
  exact hh f

theorem newFunction (hh : h.CodeWellFormed) {o : FunctionObject}
    (ho : Stmt.allWellFormed o.state.code.body = true) : (h.newFunction o).2.CodeWellFormed := by
  intro f
  show Stmt.allWellFormed ((h.functions.push o).get f).state.code.body = true
  rcases Nat.lt_trichotomy f.index h.functions.size with hf | hf | hf
  · rw [Arena.get_push_of_lt _ _ hf]
    exact hh f
  · obtain rfl : f = h.functions.next := by cases f; cases hf; rfl
    rw [Arena.get_push_next]
    exact ho
  · rw [Arena.get_of_size_le _ (by rw [Arena.size_push]; exact hf)]
    rfl

theorem modifyFunction (hh : h.CodeWellFormed) (f : FunctionRef) {g : FunctionState → FunctionState}
    (hg : ∀ s, Stmt.allWellFormed s.code.body = true → Stmt.allWellFormed (g s).code.body = true) :
    (h.modifyFunction f g).CodeWellFormed := by
  intro f'
  rcases h.functions.get_modify_or f f' fun o => { o with state := g o.state } with he | ⟨-, he⟩
  · show Stmt.allWellFormed ((h.functions.modify _ _).get f').state.code.body = true
    rw [he]
    exact hh f'
  · show Stmt.allWellFormed ((h.functions.modify _ _).get f').state.code.body = true
    rw [he]
    exact hg _ (hh f')

end CodeWellFormed

end Heap

end LivePatch
