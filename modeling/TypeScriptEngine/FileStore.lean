import TypeScriptEngine.Path.Normal
import TypeScriptEngine.Path.Set

/-!
# The file store

The texts of the files that an instance knows, each with a version that grows with every new text.
Files are known by their normal paths, whatever spelling they are asked for by.
-/

namespace TypeScriptEngine

/-- A file that an instance knows. -/
structure TrackedFile where
  path : Path
  text : String
  version : Nat
  isDeclaration : Bool
deriving Repr

/-- The files of an instance, in the order in which they came in. -/
structure FileStore where
  files : List TrackedFile
deriving Repr

namespace FileStore

/-- The store without files. -/
def empty : FileStore := ⟨[]⟩

/-- The file of a path. -/
def get? (store : FileStore) (path : Path) : Option TrackedFile :=
  let path := path.normalize
  store.files.find? fun file => file.path == path

/-- Whether there is a file of a path. -/
def contains (store : FileStore) (path : Path) : Bool := (store.get? path).isSome

/-- A file as it comes in. -/
def newFile (path : Path) (text : String) : TrackedFile :=
  let path := path.normalize
  { path, text, version := 0, isDeclaration := path.isDeclaration }

/-- Adds a file at version zero, unless there is one of that path. -/
def insertNew (store : FileStore) (path : Path) (text : String) : FileStore :=
  if store.contains path then store else ⟨store.files ++ [newFile path text]⟩

/-- Sets the text of a file.  A new file has version zero; one that was there gets the next version,
even if the text is the same. -/
def upsert (store : FileStore) (path : Path) (text : String) : FileStore :=
  if store.contains path then
    let path := path.normalize
    ⟨store.files.map fun file =>
      if file.path == path then { file with text, version := file.version + 1 } else file⟩
  else store.insertNew path text

/-- The store without a file. -/
def remove (store : FileStore) (path : Path) : FileStore :=
  let path := path.normalize
  ⟨store.files.filter fun file => !(file.path == path)⟩

/-- The paths of all files, in ascending order. -/
def paths (store : FileStore) : List Path := Path.setOf (store.files.map TrackedFile.path)

/-- The declaration files. -/
def declarations (store : FileStore) : List TrackedFile :=
  store.files.filter TrackedFile.isDeclaration

end FileStore

end TypeScriptEngine
