/-
Values as text: as a program prints them, and quoted for the reader of a message.
-/
import LivePatch.Heap
import LivePatch.Text.Quoted

namespace LivePatch

namespace Heap

/-- The name of a value's type. An instance has the name of its class. -/
def typeName (h : Heap) : Value → String
  | .object o => (h.type (h.object o).type).name
  | v => v.kind.name

/-- A function with the module that defined it. -/
def describeFunction (h : Heap) (f : FunctionRef) : String :=
  "<fn " ++ (h.function f).module ++ "." ++ (h.function f).name ++ ">"

/-- A value as a program prints it. -/
def display (h : Heap) : Value → String
  | .none => "none"
  | .bool b => if b then "true" else "false"
  | .int n => toString n.toInt
  | .str text => text
  | .builtin b => "<builtin " ++ b.name ++ ">"
  | .function f => "<fn " ++ (h.function f).name ++ ">"
  | .method m => "<method " ++ (h.function (h.method m).function).name ++ ">"
  | .type c => "<class " ++ (h.type c).name ++ ">"
  | .object o => "<" ++ (h.type (h.object o).type).name ++ " instance>"

/-- A value for the reader of a message: text is quoted. -/
def inspect (h : Heap) : Value → String
  | .str text => Text.quoted text
  | v => h.display v

/-- The object behind a value; a function shows its module too. A scalar has no object. -/
def describeObject (h : Heap) : Value → String
  | .function f => h.describeFunction f
  | .method m => h.display (.method m)
  | .type c => h.display (.type c)
  | .object o => h.display (.object o)
  | .none | .bool _ | .int _ | .str _ | .builtin _ => ""

/-- The names bound in a namespace, quoted. -/
def describeScope (h : Heap) (s : ScopeRef) : String :=
  Text.braced ((h.scope s).names.map Text.quoted)

/-- A module with the names bound in it. -/
def describeModule (h : Heap) (m : ModuleRef) : String :=
  let o := h.module m
  "Module \x7b name: " ++ Text.quoted o.name ++ ", package: " ++
    (if o.searchPath.isSome then "true" else "false") ++ ", names: " ++ h.describeScope o.scope ++
    " \x7d"

end Heap

end LivePatch
