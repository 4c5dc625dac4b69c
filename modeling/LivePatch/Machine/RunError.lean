/-
What can go wrong while code runs.
-/
import LivePatch.Name

namespace LivePatch

/-- An error of running code. -/
inductive RunError where
  | undefinedVariable (name : Name)
  | noAttribute (typeName : String) (attr : Name)
  | cannotSetAttribute (typeName : String) (attr : Name)
  | notCallable (typeName : String)
  /-- A call with `got` arguments of something that takes from `min` to `max`. -/
  | arity (name : Name) (min max got : Nat)
  | typeMismatch (op left right : String)
  | invalidBase (className : Name) (found : String)
  | divisionByZero
  | integerOverflow (op : String)
  /-- A call that would nest deeper than the limit. -/
  | recursionLimit (depth : Nat)
  | raised (message : String)
  | returnOutsideFunction
  /-- A builtin function that refuses its arguments. -/
  | builtin (name message : String)
  deriving DecidableEq, Repr

namespace RunError

/-- The number of arguments that would be right. -/
def arityRange (min max : Nat) : String :=
  if min = max then toString min else toString min ++ " to " ++ toString max

def message : RunError → String
  | undefinedVariable x => "undefined variable `" ++ x ++ "`"
  | noAttribute t a => "`" ++ t ++ "` has no attribute `" ++ a ++ "`"
  | cannotSetAttribute t a => "cannot set attribute `" ++ a ++ "` on `" ++ t ++ "`"
  | notCallable t => "`" ++ t ++ "` is not callable"
  | arity x min max got =>
    "`" ++ x ++ "` expected " ++ arityRange min max ++ " argument(s), got " ++ toString got
  | typeMismatch op l r =>
    "unsupported operand types for `" ++ op ++ "`: `" ++ l ++ "` and `" ++ r ++ "`"
  | invalidBase c found => "base of class `" ++ c ++ "` must be a class, found `" ++ found ++ "`"
  | divisionByZero => "division by zero"
  | integerOverflow op => "integer overflow in `" ++ op ++ "`"
  | recursionLimit d => "maximum call depth of " ++ toString d ++ " exceeded"
  | raised text => "raised: " ++ text
  | returnOutsideFunction => "`return` outside of a function"
  | builtin x text => x ++ ": " ++ text

end RunError

end LivePatch
