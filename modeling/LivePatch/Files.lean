/-
Files and directories below a working directory. Reading and writing go through the rules by which
paths lead to files; what goes wrong is told in the words of the operating system.
-/
import LivePatch.Files.Path
import LivePatch.Text.Utf8

namespace LivePatch

/-- Why a file cannot be read or written. -/
inductive FileError where
  | notFound
  | notDirectory
  | isDirectory
  /-- A name of the path, or the path as a whole, has too many bytes. -/
  | nameTooLong
  /-- The path holds the character that ends a path for the operating system. -/
  | zeroInPath
  /-- The bytes of the file are not text. -/
  | notText
  /-- The unit was found but nothing was opened for reading. -/
  | noStream
  /-- Whatever else the operating system refuses, in its words. -/
  | refused (reason : String)
  deriving DecidableEq, Repr

namespace FileError

def message : FileError → String
  | notFound => "No such file or directory (os error 2)"
  | notDirectory => "Not a directory (os error 20)"
  | isDirectory => "Is a directory (os error 21)"
  | nameTooLong => "File name too long (os error 36)"
  | zeroInPath => "file name contained an unexpected NUL byte"
  | notText => "stream did not contain valid UTF-8"
  | noStream => "resolver returned no stream"
  | refused reason => reason

end FileError

/-- What stands at a place of the tree. -/
inductive Entry where
  | file (bytes : List UInt8)
  /-- A file that cannot be opened. -/
  | locked (e : FileError)
  /-- A file that can be opened but not be read. -/
  | faulty (e : FileError)
  | directory
  deriving DecidableEq, Repr

/-- A place of the tree: the names that lead to it from the working directory. Those around the
working directory begin with steps up, written as two dots, or with a slash for the root. -/
abbrev Place := List Name

namespace Place

/-- The place where a path starts. -/
def start (p : Path) : Place := if p.isAbsolute then ["/"] else []

/-- The working directory, every directory around it and the root are always there. -/
def isAlwaysThere (place : Place) : Bool := place.all (· = "..") || place = ["/"]

/-- The directory around a place. The root is its own. -/
def parent (place : Place) : Place :=
  if place = ["/"] then place
  else if place.isAlwaysThere then place ++ [".."]
  else place.dropLast

/-- Where a segment of a path leads from a directory. -/
def step (place : Place) (segment : Name) : Except FileError Place :=
  if Path.stays segment then .ok place
  else if segment = ".." then .ok place.parent
  else if Path.maxNameBytes < segment.utf8ByteSize then .error .nameTooLong
  else .ok (place ++ [segment])

end Place

/-- The files and directories that were made, each with its place. -/
structure Files where
  entries : List (Place × Entry)

namespace Files

def empty : Files := ⟨[]⟩

instance : Inhabited Files := ⟨empty⟩

/-- What stands at a place. -/
def entry? (fs : Files) (place : Place) : Option Entry :=
  if place.isAlwaysThere then some .directory else fs.entries.lookup place

/-- Follows the segments of a path from `place`. Only a directory can be walked through. -/
def follow (fs : Files) (place : Place) : List Name → Except FileError Place
  | [] => .ok place
  | x :: xs =>
    match fs.entry? place, place.step x with
    | none, _ => .error .notFound
    | some .directory, .error e => .error e
    | some .directory, .ok next => follow fs next xs
    | some _, _ => .error .notDirectory

/-- The place that a path leads to, whether something stands there or not. -/
def locate (fs : Files) (p : Path) : Except FileError Place :=
  if p.contains '\x00' then .error .zeroInPath
  else if p.isEmpty then .error .notFound
  else if Path.maxBytes < p.utf8ByteSize then .error .nameTooLong
  else fs.follow (Place.start p) p.segments

/-- What a path leads to. -/
def at? (fs : Files) (p : Path) : Option Entry :=
  match fs.locate p with
  | .ok place => fs.entry? place
  | .error _ => none

/-- Whether a path leads to a directory. -/
def isDirectory (fs : Files) (p : Path) : Bool := fs.at? p = some .directory

/-- Whether a path leads to a file, which need not be one that can be opened. -/
def isFile (fs : Files) (p : Path) : Bool :=
  match fs.at? p with
  | some .directory | none => false
  | some _ => true

/-- What is opened for reading, with what reading it to its end will come to. A directory can be
opened as well. -/
def openFile (fs : Files) (p : Path) : Except FileError (Except FileError (List UInt8)) := do
  match fs.entry? (← fs.locate p) with
  | some (.file bytes) => .ok (.ok bytes)
  | some (.faulty e) => .ok (.error e)
  | some (.locked e) => .error e
  | some .directory => .ok (.error .isDirectory)
  | none => .error .notFound

/-- The contents of a file. -/
def read (fs : Files) (p : Path) : Except FileError (List UInt8) := do
  let contents ← fs.openFile p
  contents

/-- The contents of a file as text. -/
def readText (fs : Files) (p : Path) : Except FileError String := do
  match Text.Utf8.decode (← fs.read p) with
  | .ok text => .ok text
  | .error _ => .error .notText

/-- The tree with an entry put at a place. -/
def put (fs : Files) (place : Place) (e : Entry) : Files :=
  ⟨(place, e) :: fs.entries.filter (·.1 ≠ place)⟩

/-- Replaces the contents of a file, or makes it in a directory that is there. -/
def create (fs : Files) (p : Path) (bytes : List UInt8) : Except FileError Files := do
  let place ← fs.locate p
  match fs.entry? place with
  | some .directory => .error .isDirectory
  | some (.locked e) => .error e
  | _ => .ok (fs.put place (.file bytes))

/-- Follows segments from `place` and makes the directories that are not there yet, up to the first
segment that leads nowhere. -/
def makeWay (fs : Files) (place : Place) : List Name → Files
  | [] => fs
  | x :: xs =>
    match place.step x with
    | .error _ => fs
    | .ok next =>
      match fs.entry? next with
      | some .directory => makeWay fs next xs
      | some _ => fs
      | none => makeWay (fs.put next .directory) next xs

/-- Makes a directory with all directories that lead to it. -/
def makeDirectory (fs : Files) (p : Path) : Files := fs.makeWay (Place.start p) p.segments

/-- Writes a file, with all directories that lead to it. Where no file can stand, none is written. -/
def write (fs : Files) (p : Path) (bytes : List UInt8) : Files :=
  let fs := fs.makeWay (Place.start p) p.directorySegments
  match fs.create p bytes with
  | .ok written => written
  | .error _ => fs

/-- Takes away what a path leads to and everything below it. -/
def remove (fs : Files) (p : Path) : Files :=
  match fs.locate p with
  | .ok place => ⟨fs.entries.filter fun e => !place.isPrefixOf e.1⟩
  | .error _ => fs

end Files

end LivePatch
