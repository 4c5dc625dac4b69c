/-
Calls. Calling a function runs its body one call deeper; a limit on the depth ends every chain of
nested function calls. Calling a class makes an instance and hands it to the attribute `init` of the
class, which may be any value that can be called.

Making an instance is no call of its own, so a chain of classes each of which is the `init` of the
one before is not ended by the limit. While such a chain is followed no class changes, and a chain
longer than the number of classes comes back to a class it has met: it has no end.
-/
import LivePatch.Machine.Run

namespace LivePatch

namespace Run

/-- Binds parameters to arguments, and the parameters left over to the last defaults. -/
def bindParams : List Name → List Value → List Value → Bindings Value → Bindings Value
  | [], _, _, b => b
  | x :: xs, v :: vs, ds, b => bindParams xs vs ds (b.insert x v)
  | x :: xs, [], d :: ds, b => bindParams xs [] ds (b.insert x d)
  | x :: xs, [], [], b => bindParams xs [] [] (b.insert x .none)

/-- The bindings that a call of a function starts with. The number of arguments has to be at most
that of the parameters and at least that of the parameters without default. -/
def bindArguments (name : Name) (params : List Name) (defaults args : List Value) :
    Except RunError (Bindings Value) :=
  let max := params.length
  let min := max - defaults.length
  if args.length < min ∨ max < args.length then .error (.arity name min max args.length)
  else .ok (bindParams params args (defaults.drop (args.length - min)) .empty)

/-- What runs the body of a function on arguments. -/
abbrev Invoker := FunctionRef → List Value → Run Value

/-- Calls a value, following at most `n` classes from one `init` to the next. -/
def callWithin (invoke : Invoker) : Nat → Caller
  | 0, _, _ => throw .divergence
  | n + 1, callee, args =>
    match callee with
    | .builtin b => b.apply args
    | .function f => invoke f args
    | .method m => do
      let o ← read (·.method m)
      invoke o.function (o.receiver :: args)
    | .type c => do
      let o ← make (·.newInstance c)
      match ← read (·.lookup c "init") with
      | some (.function f) =>
        let _ ← invoke f (.object o :: args)
        return .object o
      | some v =>
        let _ ← callWithin invoke n v args
        return .object o
      | none =>
        if args.isEmpty then return .object o
        else fail (.arity (← read fun h => (h.type c).name) 0 0 args.length)
    | v => do fail (.notCallable (← read (·.typeName v)))

/-- Calls a value. -/
def callBy (invoke : Invoker) : Caller := fun callee args => do
  let classes ← read (·.classes.size)
  callWithin invoke (classes + 2) callee args

/-- Runs the body of a function on arguments, with at most `n` calls nested in one another. The code
and the defaults are those the function has when the call begins. -/
def invokeWithin (limit : Nat) : Nat → Invoker
  | 0, _, _ => throw .divergence
  | n + 1, f, args => do
    if limit ≤ (← depth) then fail (.recursionLimit limit) else
    let o ← read (·.function f)
    match bindArguments o.name o.state.code.params o.state.defaults args with
    | .error e => fail e
    | .ok locals =>
      let frame : Frame := ⟨o.globals, o.module, .function locals⟩
      match ← deeper (Stmt.runAll (callBy (invokeWithin limit n)) frame o.state.code.body) with
      | .leave v => return v
      | .next _ => return .none

/-- Runs the body of a function under a limit on the depth. The bound on the nesting is one more
than what is left of the limit. -/
def invoke (limit : Nat) : Invoker := fun f args => do
  let d ← depth
  invokeWithin limit (limit - d + 1) f args

/-- Calls any value under a limit on the depth. -/
def call (limit : Nat) : Caller := callBy (invoke limit)

end Run

/-- Runs the statements of a unit in a namespace, as code of the module of the name given. What was
bound before a failing statement stays bound. -/
def CodeUnit.run (limit : Nat) (u : CodeUnit) (globals : ScopeRef) (module : Name) : Run Unit := do
  match ← Stmt.runAll (Run.call limit) ⟨globals, module, .module⟩ u.body with
  | .next _ => return ()
  | .leave _ => Run.fail .returnOutsideFunction

end LivePatch
