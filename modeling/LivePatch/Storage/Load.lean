/-
Loading a unit: finding its storage and reading a tree from it. A package directory stands for the
unit that holds the code of the package.
-/
import LivePatch.Compiled.Decode
import LivePatch.Storage.Find
import LivePatch.Syntax.Statement

namespace LivePatch

/-- A unit that is ready to run. -/
structure ReadUnit where
  unit : CodeUnit
  /-- The file that the unit was read from. -/
  location : Path
  kind : StorageKind
  /-- The package directory that was found, if the unit is the code of a package. -/
  packageDir : Option Path

/-- What loading comes to. -/
inductive Loaded where
  | unit (u : ReadUnit)
  /-- The storage is of a kind that cannot be loaded, and was not read. -/
  | unsupported (location : Path) (kind : StorageKind)

namespace Load

/-- The bytes of the storage that was found, which has to be opened. -/
def bytesOf (found : Found) : Except ModuleError (List UInt8) :=
  match found.stream with
  | some s => s.contents.mapError (.file found.location)
  | none => .error (.file found.location .noStream)

/-- The unit that source text spells. -/
def fromSource (location : Path) (bytes : List UInt8) : Except ModuleError CodeUnit :=
  match Text.Utf8.decode bytes with
  | .error _ => .error (.file location .notText)
  | .ok text =>
    match CodeUnit.parse text location with
    | .error e => .error (.compile location e)
    | .ok u => .ok u

/-- The unit of a compiled form. -/
def fromCompiled (location : Path) (bytes : List UInt8) : Except ModuleError CodeUnit :=
  match Compiled.decode bytes with
  | .error e => .error (.corrupt location e.message)
  | .ok u => .ok u

/-- What the storage that was found holds. -/
def fromStorage (found : Found) (packageDir : Option Path) : Except ModuleError Loaded := do
  match found.kind with
  | .source =>
    let u ← fromSource found.location (← bytesOf found)
    return .unit ⟨u, found.location, found.kind, packageDir⟩
  | .compiled =>
    let u ← fromCompiled found.location (← bytesOf found)
    return .unit ⟨u, found.location, found.kind, packageDir⟩
  | .packageDirectory | .native => return .unsupported found.location found.kind

end Load

/-- Loads a unit by its leaf name. The code of a package is searched for in the places of the package
if they are given, and else in the directory that was found. -/
def load (find : Finder) (leaf : Name) (search : List Path) (packagePath : Option (List Path)) :
    Except ModuleError Loaded := do
  let found ← find leaf search
  match found.kind with
  | .packageDirectory =>
    let dir := found.location
    let code ← find Storage.packageInit (packagePath.getD [dir])
    Load.fromStorage code (some dir)
  | _ => Load.fromStorage found none

/-- Writes the compiled form of a source file beside it, and gives the path written. -/
def compileFile (fs : Files) (source : Path) : Except ModuleError (Path × Files) := do
  let text ← (fs.readText source).mapError (.file source)
  let u ← (CodeUnit.parse text source).mapError (.compile source)
  let target := source.withExtension Storage.compiledExtension
  let fs ← (fs.create target (Compiled.encode u)).mapError (.file target)
  return (target, fs)

end LivePatch
