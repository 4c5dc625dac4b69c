/-
What can go wrong while a module is imported or reloaded.
-/
import LivePatch.Machine.RunError
import LivePatch.Files
import LivePatch.Storage.Kind
import LivePatch.Syntax.SyntaxError
import LivePatch.Text.Quoted

namespace LivePatch

/-- An error of importing or reloading. -/
inductive ModuleError where
  | notFound (name : Name) (searched : List Path)
  /-- The package that a module lies in is not loaded. -/
  | unknownPackage (module package : Name)
  /-- The module that another would lie in is no package. -/
  | notPackage (module package : Name)
  | file (path : Path) (source : FileError)
  | compile (location : Path) (source : SyntaxError)
  | corrupt (location : Path) (reason : String)
  /-- The storage of a unit is of a kind that cannot be loaded. -/
  | unsupportedKind (name : Name) (kind : StorageKind)
  | execution (module : Name) (source : RunError)
  /-- A hook failed while the module was changed, and the change was undone. -/
  | patch (name : Name) (source : RunError)
  deriving DecidableEq, Repr

namespace ModuleError

def message : ModuleError → String
  | notFound x searched =>
    "no unit named `" ++ x ++ "` found in " ++
      Text.bracketed (searched.map Text.quoted)
  | unknownPackage m p =>
    "cannot locate `" ++ m ++ "`: parent package `" ++ p ++ "` is not loaded"
  | notPackage m p => "cannot locate `" ++ m ++ "`: `" ++ p ++ "` is not a package"
  | file p e => "failed to read " ++ p ++ ": " ++ e.message
  | compile p e => "failed to compile " ++ p ++ ": " ++ e.message
  | corrupt p reason => "corrupt compiled unit " ++ p ++ ": " ++ reason
  | unsupportedKind x kind =>
    "`" ++ x ++ "` resolves to a " ++ kind.name ++ " unit, which cannot be loaded"
  | execution m e => "executing `" ++ m ++ "` failed: " ++ e.message
  | patch x e => "patching `" ++ x ++ "` failed, changes rolled back: " ++ e.message

end ModuleError

end LivePatch
