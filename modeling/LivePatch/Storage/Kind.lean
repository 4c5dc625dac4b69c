/-
What the storage of a unit can be.
-/
namespace LivePatch

/-- The kinds of storage. Only source text and compiled units can be loaded. -/
inductive StorageKind where
  | source | compiled | packageDirectory | native
  deriving DecidableEq, Repr

namespace StorageKind

def name : StorageKind → String
  | source => "source"
  | compiled => "compiled"
  | packageDirectory => "package directory"
  | native => "native"

def all : List StorageKind := [source, compiled, packageDirectory, native]

def ofName? (name : String) : Option StorageKind := all.find? (·.name == name)

end StorageKind

end LivePatch
