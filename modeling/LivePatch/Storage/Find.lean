/-
Finding the storage of a unit by its name in a list of directories. The first directory that has any
storage of the name wins; there a package directory comes first, then source text, a compiled unit
and a native library.
-/
import LivePatch.Module.ModuleError

namespace LivePatch

/-- The storage of a unit, opened for reading. -/
structure Stream where
  location : Path
  /-- What reading it to its end comes to. -/
  contents : Except FileError (List UInt8)

/-- The stream for the reader of a message. -/
def Stream.describe (s : Stream) : String :=
  "UnitStream \x7b location: " ++ Text.quoted s.location ++ ", .. \x7d"

/-- The storage of a unit that was found. A package directory has no stream. -/
structure Found where
  stream : Option Stream
  location : Path
  kind : StorageKind

/-- A way to find the storage of a unit. -/
abbrev Finder := Name → List Path → Except ModuleError Found

namespace Storage

def sourceExtension : String := "em"

def compiledExtension : String := "emc"

/-- The name of the unit that holds the code of a package itself. -/
def packageInit : Name := "__init__"

/-- The extensions of files that hold units, the preferred ones first. -/
def extensions : List (String × StorageKind) :=
  [(sourceExtension, .source), (compiledExtension, .compiled), ("so", .native),
   ("dylib", .native), ("dll", .native)]

/-- The file name of a unit with an extension. -/
def fileName (x : Name) (extension : String) : String := x ++ "." ++ extension

/-- Whether a path leads to a directory that holds the code of a package. -/
def isPackage (fs : Files) (dir : Path) : Bool :=
  fs.isDirectory dir &&
    [sourceExtension, compiledExtension].any fun e => fs.isFile (dir.join (fileName packageInit e))

/-- The file of a unit with an extension, if it is there. It is opened whatever it holds, and the
search ends with an error when it cannot be. -/
def file? (fs : Files) (root : Path) (x : Name) (extension : String) (kind : StorageKind) :
    Option (Except ModuleError Found) :=
  let path := root.join (fileName x extension)
  if fs.isFile path then
    match fs.openFile path with
    | .ok contents => some (.ok ⟨some ⟨path, contents⟩, path, kind⟩)
    | .error e => some (.error (.file path e))
  else none

/-- The storage of a unit in one directory, or what is wrong with it. -/
def inRoot? (fs : Files) (x : Name) (root : Path) : Option (Except ModuleError Found) :=
  if isPackage fs (root.join x) then some (.ok ⟨none, root.join x, .packageDirectory⟩)
  else extensions.findSome? fun (extension, kind) => file? fs root x extension kind

/-- The storage of a unit in the first directory that has one. -/
def inFiles (fs : Files) : Finder := fun x search =>
  match search.findSome? (inRoot? fs x) with
  | some found => found
  | none => .error (.notFound x search)

/-- The directories of a path list, which are separated by colons. Empty ones are passed over. -/
def parseRoots (list : String) : List Path := (list.splitOn ":").filter (· ≠ "")

end Storage

end LivePatch
