import TypeScriptEngine.Disk.Basic

/-!
# Changing the file tree

Making directories, and writing and deleting files.
-/

namespace TypeScriptEngine.Disk

/-- The tree with another entry at a place. -/
def put (disk : Disk) (place : Place) (entry : DiskEntry) : Disk :=
  { disk with entries := (disk.entries.filter fun e => !(e.1 == place)) ++ [(place, entry)] }

/-- The tree without what is at a place and below it. -/
def remove (disk : Disk) (place : Place) : Disk :=
  { disk with entries := disk.entries.filter fun e => !(place.isPrefixOf e.1) }

/-- Walks segments, and makes the directories that are missing on the way. -/
def makeDirectoriesFrom (time : Nat) : Disk → Place → List Segment → Except DiskError (Disk × Place)
  | disk, place, [] => .ok (disk, place)
  | disk, place, .name name :: rest => do
    disk.requireDirectory place
    requireName name
    let inner := place ++ [name]
    match disk.entry? inner with
    | some (.directory _) => makeDirectoriesFrom time disk inner rest
    | some (.file _ _) => throw (if rest.isEmpty then .alreadyExists else .notDirectory)
    | none => makeDirectoriesFrom time (disk.put inner (.directory time)) inner rest
  | disk, place, segment :: rest => do
    makeDirectoriesFrom time disk (← disk.step place segment) rest

/-- Makes a directory, and those above it that are missing. -/
def makeDirectories (disk : Disk) (time : Nat) (path : Path) : Except DiskError Disk := do
  requireSpelling path
  return (← makeDirectoriesFrom time disk disk.workingDir path.segments).1

/-- Writes a file into a directory that is there. -/
def write (disk : Disk) (time : Nat) (path : Path) (text : Option String) :
    Except DiskError Disk := do
  if path.text.isEmpty then throw .notFound
  requireSpelling path
  let place ← disk.walk disk.workingDir path.segments.dropLast
  disk.requireDirectory place
  match path.segments.getLast? with
  | some (.name name) =>
    if isDirectorySpelling path.text.toList then throw .isDirectory
    requireName name
    match disk.entry? (place ++ [name]) with
    | some (.directory _) => throw .isDirectory
    | _ => return disk.put (place ++ [name]) (.file text time)
  | _ => throw .isDirectory

/-- Deletes a file. -/
def delete (disk : Disk) (path : Path) : Except DiskError Disk := do
  match ← disk.lookUp path with
  | (place, .file _ _) => return disk.remove place
  | (_, .directory _) => throw .isDirectory

/-- The files with texts that an older tree does not have in this way. -/
def changedSince (disk older : Disk) : List (Place × String) :=
  disk.entries.filterMap fun (place, entry) =>
    match entry, older.entry? place with
    | .file (some text) _, some (.file (some before) _) =>
      if text = before then none else some (place, text)
    | .file (some text) _, _ => some (place, text)
    | _, _ => none

end TypeScriptEngine.Disk
