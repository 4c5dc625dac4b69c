/-
Values of the language. A scalar is its value; everything with an identity is a reference to an
object on the heap, so that equality of values is at once equality of scalars and identity of
objects.
-/
import LivePatch.Name

namespace LivePatch

/-! ## References -/

/-- The kinds of objects that are shared and changed in place. -/
inductive ObjectKind where
  | scope | function | method | type | object | module
  deriving DecidableEq, Repr

/-- The identity of an object of one kind. -/
structure Ref (κ : ObjectKind) where
  index : Nat
  deriving DecidableEq, Repr

instance {κ : ObjectKind} : Inhabited (Ref κ) := ⟨⟨0⟩⟩

/-- A shared namespace. -/
abbrev ScopeRef := Ref .scope

/-- A function object. -/
abbrev FunctionRef := Ref .function

/-- A method bound to its receiver. -/
abbrev MethodRef := Ref .method

/-- A class object. -/
abbrev ClassRef := Ref .type

/-- An instance of a class. -/
abbrev InstanceRef := Ref .object

/-- A module. -/
abbrev ModuleRef := Ref .module

/-! ## Values -/

/-- The functions that every unit can call without defining them. -/
inductive Builtin where
  | str | len | hasattr | getattr | isinstance | typeName
  deriving DecidableEq, Repr

namespace Builtin

/-- The name of a builtin function. -/
def name : Builtin → Name
  | str => "str"
  | len => "len"
  | hasattr => "hasattr"
  | getattr => "getattr"
  | isinstance => "isinstance"
  | typeName => "type_name"

/-- All builtin functions. -/
def all : List Builtin := [str, len, hasattr, getattr, isinstance, typeName]

/-- The builtin function of a name. -/
def ofName? (x : Name) : Option Builtin := all.find? (·.name == x)

end Builtin

/-- A value. -/
inductive Value where
  | none
  | bool (b : Bool)
  | int (n : Int64)
  | str (text : String)
  | builtin (b : Builtin)
  | function (f : FunctionRef)
  | method (m : MethodRef)
  | type (c : ClassRef)
  | object (o : InstanceRef)
  deriving DecidableEq, Repr, Inhabited

namespace Value

/-- The kinds of values. Only values of one kind can take each other's place without a new
binding. -/
inductive Kind where
  | none | bool | int | str | builtin | function | method | type | object
  deriving DecidableEq, Repr

/-- The kind of a value. -/
def kind : Value → Kind
  | none => .none
  | bool _ => .bool
  | int _ => .int
  | str _ => .str
  | builtin _ => .builtin
  | function _ => .function
  | method _ => .method
  | type _ => .type
  | object _ => .object

/-- The name of a kind. -/
def Kind.name : Kind → String
  | none => "none"
  | bool => "bool"
  | int => "int"
  | str => "str"
  | builtin => "builtin"
  | function => "function"
  | method => "method"
  | type => "class"
  | object => "instance"

/-- Whether a value counts as true: `none`, `false`, zero and the empty text do not. -/
def isTruthy : Value → Bool
  | none => false
  | bool b => b
  | int n => n ≠ 0
  | str text => text ≠ ""
  | _ => true

end Value

end LivePatch
