import TypeScriptEngine.CommandLine.Run

/-!
# The program

The thin layer around `CommandLine.run`.  The files around the working directory, and around those
that the arguments name, are read into a `Disk`, the run is worked out on it, and what has changed
is written back.

Around a directory are the files of its project, which reaches up to the outermost directory with a
configuration or a package manifest.  Of the directories above it only the files in JSON and the
installed packages are read.
-/

namespace TypeScriptEngine

namespace Snapshot

/-- The entries of a tree, collected so far. -/
abbrev Entries := Array (Place × DiskEntry)

/-- A time in nanoseconds. -/
def nanoseconds (time : IO.FS.SystemTime) : Nat := time.sec.toNat * 1000000000 + time.nsec.toNat

/-- How deep a tree is read. -/
def maxDepth : Nat := 64

/-- The names of a path in the tree. -/
def placeOf (working path : Path) : Place :=
  (working.join path).normalize.segments.filterMap Segment.name?

/-- The path of a place. -/
def textOf (place : Place) : String := "/" ++ "/".intercalate place

/-- Whether what is at a place is of interest: it belongs to one of some projects or to an installed
package. -/
def isWithin (projects : List Place) (place : Place) : Bool :=
  projects.any (fun project => project.isPrefixOf place) || place.contains "node_modules"

/-- Whether a directory has to be entered: it is of interest, or leads to a project. -/
def isEntered (projects : List Place) (place : Place) : Bool :=
  isWithin projects place || projects.any fun project => place.isPrefixOf project

/-- Whether the text of a file is read. -/
def isRead (projects : List Place) (place : Place) : Bool :=
  isWithin projects place || place.getLast?.any fun name => name.endsWith ".json"

/-- Reads a file or directory, and what is in it.  What cannot be read is left out. -/
def readEntry (projects : List Place) : Nat → Place → Entries → IO Entries
  | 0, _, entries => return entries
  | depth + 1, place, entries => do
    try
      let path := (← IO.currentDir) / textOf place
      let metadata ← path.metadata
      let time := nanoseconds metadata.modified
      if metadata.type == .dir then
        let mut entries := entries.push (place, .directory time)
        if isEntered projects place then
          for inner in ← path.readDir do
            entries ← readEntry projects depth (place ++ [inner.fileName]) entries
        return entries
      else
        let bytes ← if isRead projects place then IO.FS.readBinFile path else pure .empty
        return entries.push (place, .file (String.fromUTF8? bytes) time)
    catch _ => return entries

/-- Whether a directory holds a configuration or a package manifest. -/
def isProject (place : Place) : IO Bool := do
  let path := (← IO.currentDir) / textOf place
  return (← (path / Config.standardName).pathExists) || (← (path / "package.json").pathExists)

/-- The outermost project among some directories, the outermost of which comes first, or else the
given one. -/
def outermostProject (given : Place) : List Place → IO Place
  | [] => return given
  | place :: places => do
    if ← isProject place then return place else outermostProject given places

/-- The project of a directory. -/
def projectOf (place : Place) : IO Place :=
  outermostProject place ((List.range place.length).map fun n => place.take (n + 1))

/-- The directories of the files that arguments name. -/
def directoriesOf (working : Path) (arguments : List String) : IO (List Place) := do
  let places := arguments.map fun argument => placeOf working ⟨argument⟩
  let files ← places.filterM fun place => do
    let path := (← IO.currentDir) / textOf place
    return (← path.pathExists) && !(← path.isDir)
  return files.map List.dropLast

/-- The tree around the working directory and the files that arguments name. -/
def read (arguments : List String) : IO Disk := do
  let working : Path := ⟨(← IO.currentDir).toString⟩
  let workingDir := placeOf working ⟨"."⟩
  let directories := workingDir :: (← directoriesOf working arguments)
  let projects ← directories.mapM projectOf
  let entries ← readEntry projects maxDepth [] #[]
  return { workingDir, entries := entries.toList }

/-- Writes a file, and makes the directories above it. -/
def writeFile (place : Place) (text : String) : IO Unit := do
  let path := (← IO.currentDir) / textOf place
  if let some directory := path.parent then IO.FS.createDirAll directory
  IO.FS.writeFile path text

end Snapshot

/-- Runs the program on the tree around the working directory. -/
def runProgram (arguments : List String) : IO UInt32 := do
  let disk ← Snapshot.read arguments
  let run := CommandLine.run disk arguments
  for (place, text) in run.disk.changedSince disk do
    Snapshot.writeFile place text
  (← IO.getStdout).putStr run.out
  (← IO.getStderr).putStr run.err
  return run.code.toUInt32

end TypeScriptEngine

/-- The entry point. -/
def main (arguments : List String) : IO UInt32 := TypeScriptEngine.runProgram arguments
