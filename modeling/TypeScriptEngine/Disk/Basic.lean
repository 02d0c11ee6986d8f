import TypeScriptEngine.Path.Normal
import TypeScriptEngine.Text.Bytes

/-!
# The file tree

A `Disk` is a value: the files and directories of a tree at one moment, with a working directory
that relative paths start from.  Looking up a path walks it segment by segment, so that a segment
`..` leads out of a directory that has to be there.  Paths longer than `Disk.maxPathLength` bytes
are not found, which bounds the number of ways in which one file can be spelled.
-/

namespace TypeScriptEngine

/-- Why a file or directory cannot be used. -/
inductive DiskError where
  | notFound
  | notDirectory
  | isDirectory
  | alreadyExists
  | nameTooLong
  /-- A path holds the character of code zero. -/
  | zeroInName
  /-- The bytes of a file are no text. -/
  | notText
deriving DecidableEq, Repr

/-- The wording of the error. -/
def DiskError.message : DiskError → String
  | notFound => "No such file or directory (os error 2)"
  | notDirectory => "Not a directory (os error 20)"
  | isDirectory => "Is a directory (os error 21)"
  | alreadyExists => "File exists (os error 17)"
  | nameTooLong => "File name too long (os error 36)"
  | zeroInName => "file name contained an unexpected NUL byte"
  | notText => "stream did not contain valid UTF-8"

/-- A place in the tree: the names that lead to it from the root. -/
abbrev Place := List String

/-- What is at a place. -/
inductive DiskEntry where
  /-- A file; its text is missing if its bytes are no UTF-8. -/
  | file (text : Option String) (modified : Nat)
  | directory (modified : Nat)
deriving DecidableEq, Repr

/-- A tree of files. -/
structure Disk where
  /-- Where relative paths start. -/
  workingDir : Place
  /-- The files and directories, of which there is at most one at a place. -/
  entries : List (Place × DiskEntry)
deriving Repr

namespace Disk

/-- The greatest number of bytes of a path. -/
def maxPathLength : Nat := 4095

/-- The greatest number of bytes of a name. -/
def maxNameLength : Nat := 255

/-- A bound on the number of normal paths that lead to files: the absolute path of each, and the
relative ones, which differ in how many segments `..` they begin with. -/
def spellingBound (disk : Disk) : Nat := disk.entries.length * (maxPathLength + 3)

/-- What is at a place.  The root is always a directory. -/
def entry? (disk : Disk) (place : Place) : Option DiskEntry :=
  if place = [] then some (.directory 0)
  else (disk.entries.find? fun entry => entry.1 == place).map Prod.snd

/-- Fails unless there is a directory at a place. -/
def requireDirectory (disk : Disk) (place : Place) : Except DiskError Unit :=
  match disk.entry? place with
  | some (.directory _) => .ok ()
  | some (.file _ _) => .error .notDirectory
  | none => .error .notFound

/-- Fails if a path cannot be the spelling of any file or directory. -/
def requireSpelling (path : Path) : Except DiskError Unit :=
  if path.text.toList.contains '\x00' then .error .zeroInName
  else if maxPathLength < Text.byteLength path.text.toList then .error .nameTooLong
  else .ok ()

/-- Fails if a name is too long. -/
def requireName (name : String) : Except DiskError Unit :=
  if maxNameLength < Text.byteLength name.toList then .error .nameTooLong else .ok ()

/-- One segment on from a place. -/
def step (disk : Disk) (place : Place) : Segment → Except DiskError Place
  | .root => .ok []
  | .here => do
    disk.requireDirectory place
    return place
  | .up => do
    disk.requireDirectory place
    return place.dropLast
  | .name name => do
    disk.requireDirectory place
    requireName name
    if (disk.entry? (place ++ [name])).isNone then throw .notFound
    return place ++ [name]

/-- The place that segments lead to. -/
def walk (disk : Disk) (place : Place) (segments : List Segment) : Except DiskError Place :=
  segments.foldlM disk.step place

/-- Whether the spelling of a path says that it is a directory. -/
def isDirectorySpelling (cs : List Char) : Bool :=
  match cs.reverse with
  | '/' :: _ => true
  | '.' :: '/' :: _ => true
  | _ => false

/-- The place of a path, and what is there. -/
def lookUp (disk : Disk) (path : Path) : Except DiskError (Place × DiskEntry) := do
  if path.text.isEmpty then throw .notFound
  requireSpelling path
  let place ← disk.walk disk.workingDir path.segments
  match disk.entry? place with
  | none => throw .notFound
  | some entry =>
    if isDirectorySpelling path.text.toList then disk.requireDirectory place
    return (place, entry)

/-- Whether a path leads to a file. -/
def isFile (disk : Disk) (path : Path) : Bool :=
  match disk.lookUp path with
  | .ok (_, .file _ _) => true
  | _ => false

/-- Whether a path leads to a directory. -/
def isDirectory (disk : Disk) (path : Path) : Bool :=
  match disk.lookUp path with
  | .ok (_, .directory _) => true
  | _ => false

/-- The text of a file. -/
def read (disk : Disk) (path : Path) : Except DiskError String := do
  match (← disk.lookUp path).2 with
  | .file (some text) _ => return text
  | .file none _ => throw .notText
  | .directory _ => throw .isDirectory

/-- The time at which a file or directory was changed. -/
def modified? (disk : Disk) (path : Path) : Option Nat :=
  match disk.lookUp path with
  | .ok (_, .file _ time) => some time
  | .ok (_, .directory time) => some time
  | .error _ => none

/-- The names that lead to a place from one above it. -/
def namesBelow? (place inner : Place) : Option (List String) :=
  if place.isPrefixOf inner then some (inner.drop place.length) else none

/-- The paths of the files below a directory, relative to it. -/
def filesBelow (disk : Disk) (directory : Path) : List Path :=
  match disk.lookUp directory with
  | .ok (place, .directory _) =>
    disk.entries.filterMap fun (inner, entry) =>
      match entry with
      | .file _ _ => (namesBelow? place inner).map fun names => ⟨"/".intercalate names⟩
      | .directory _ => none
  | _ => []

end Disk

end TypeScriptEngine
