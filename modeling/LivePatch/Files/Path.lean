/-
Paths: names of files and directories, written with slashes.
-/
import LivePatch.Name

namespace LivePatch

/-- A path, compared by its text. -/
abbrev Path := String

namespace Path

/-- A path that does not start at the working directory. -/
def isAbsolute (p : Path) : Bool := p.toList.head? = some '/'

/-- The path `q` seen from the directory `p`. An absolute path stays what it is, and a slash is put
in between unless there is one. -/
def join (p q : Path) : Path :=
  if q.isAbsolute || p.isEmpty then q
  else if p.toList.getLast? = some '/' then p ++ q
  else p ++ "/" ++ q

/-- A file name with its extension replaced, or added if it has none. The dot of a hidden file does
not begin an extension. A stem of one dot together with the dot of its extension is the way to the
parent directory, which takes no extension. -/
def fileWithExtension (file extension : List Char) : List Char :=
  match Name.splitLastDot file with
  | none | some ([], _) => file ++ '.' :: extension
  | some (['.'], _) => ['.', '.']
  | some (stem, _) => stem ++ '.' :: extension

/-- The path with the extension of its last name replaced. -/
def withExtension (p : Path) (extension : String) : Path :=
  let cs := p.toList
  let file := (cs.reverse.takeWhile (· ≠ '/')).reverse
  let directory := (cs.reverse.dropWhile (· ≠ '/')).reverse
  String.ofList (directory ++ fileWithExtension file extension.toList)

/-- The names between the slashes of a path. -/
def segments (p : Path) : List Name := p.splitOn "/"

/-- A segment that stays in the directory where it is met. -/
def stays (segment : Name) : Bool := segment = "" || segment = "."

/-- The segments of a path without the last that leads on. -/
def directorySegments (p : Path) : List Name :=
  ((p.segments.reverse.dropWhile stays).drop 1).reverse

/-- The most bytes that a name between two slashes may have. -/
def maxNameBytes : Nat := 255

/-- The most bytes that a path may have. -/
def maxBytes : Nat := 4095

end Path

end LivePatch
