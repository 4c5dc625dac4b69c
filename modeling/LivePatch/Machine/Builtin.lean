/-
The builtin functions.
-/
import LivePatch.Machine

namespace LivePatch

namespace Builtin

/-- The number of arguments a builtin function takes, at least and at most. -/
def arity : Builtin → Nat × Nat
  | str | len | typeName => (1, 1)
  | hasattr | isinstance => (2, 2)
  | getattr => (2, 3)

/-- Refuses the arguments for the reason given. -/
def refuse {α : Type} (b : Builtin) (reason : String) : Run α :=
  Run.fail (.builtin b.name reason)

/-- Refuses the name of an attribute that is no text. -/
def refuseAttrName {α : Type} (b : Builtin) : Run α := b.refuse "attribute name must be a string"

/-- The number of characters of a text. -/
def lengthOf (v : Value) : Run Value := do
  match v with
  | .str text => return .int (Int64.ofNat text.length)
  | v => refuse len ("`" ++ (← Run.read (·.typeName v)) ++ "` has no length")

/-- The attribute of a value, or else a default if one is given. -/
def attrOr (v : Value) (x : Name) (default : Option Value) : Run Value := do
  match ← Run.read (·.attr? v x) with
  | some found => Run.make (·.obtain found)
  | none =>
    match default with
    | some w => return w
    | none => Run.fail (.noAttribute (← Run.read (·.typeName v)) x)

/-- Whether a value is an instance of a class or of one that inherits from it. -/
def isInstanceOf (v : Value) (c : ClassRef) (h : Heap) : Bool :=
  match v with
  | .object o => h.isSubclass (h.object o).type c
  | _ => false

def apply (b : Builtin) (args : List Value) : Run Value := do
  if args.length < b.arity.1 ∨ b.arity.2 < args.length then
    Run.fail (.arity b.name b.arity.1 b.arity.2 args.length)
  else
    match b, args with
    | str, [v] => return .str (← Run.read (·.display v))
    | len, [v] => lengthOf v
    | hasattr, [v, .str x] => return .bool (← Run.read fun h => (h.attr? v x).isSome)
    | getattr, [v, .str x] => attrOr v x none
    | getattr, [v, .str x, w] => attrOr v x (some w)
    | isinstance, [v, .type c] => return .bool (← Run.read (isInstanceOf v c))
    | isinstance, _ => refuse isinstance "second argument must be a class"
    | typeName, [v] => return .str (← Run.read (·.typeName v))
    | b, _ => b.refuseAttrName

end Builtin

end LivePatch
