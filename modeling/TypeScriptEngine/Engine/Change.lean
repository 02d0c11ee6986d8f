import TypeScriptEngine.Engine.Instance

/-!
# Changed declarations

The host hands over the sources that it builds; declaration files are read by the engine itself.
That one has changed is told by the host, or found by its modification time.  The engine then reads
it again, and says which files depend on it.
-/

namespace TypeScriptEngine

/-- A file that was read again. -/
structure Invalidation where
  path : Path
  /-- Its version after that. -/
  version : Nat
  /-- The other files that depend on it, in ascending order. -/
  dependents : List Path
deriving Repr

namespace Instance

/-- The version of a file. -/
def versionOf (i : Instance) (path : Path) : Nat :=
  (i.workspace.files.get? path).elim 0 TrackedFile.version

/-- **Reads a file again** that the instance tracks, and what it refers to now. -/
def notifyChanged (i : Instance) (env : Surroundings) (path : Path) :
    Outcome Instance (Option Invalidation) :=
  let path := path.normalize
  if !i.tracks path then .pure i none
  else
    match env.disk.read path with
    | .error cause => ⟨i, [.read path], .error (.unreadable path cause)⟩
    | .ok text =>
      Outcome.andThen ⟨i, [.read path], .ok ()⟩ fun i _ =>
        (i.refresh env path text).andThen fun i _ =>
          let i := i.store env.disk path text
          .pure i (some ⟨path, i.versionOf path, i.otherDependents path⟩)

/-- Reads those of some files again whose modification time is not the one that is noted.  If none
is noted yet it is noted now.  Files that are not there are passed over. -/
def rescanFiles (env : Surroundings) :
    List Path → Instance → Outcome Instance (List Invalidation)
  | [], i => .pure i []
  | path :: paths, i =>
    match env.disk.modified? path with
    | none => rescanFiles env paths i
    | some time =>
      match Path.find? path i.workspace.declarationTimes with
      | none => rescanFiles env paths (i.withWorkspace (i.workspace.recordTime env.disk path))
      | some noted =>
        if noted = time then rescanFiles env paths i
        else
          (i.notifyChanged env path).andThen fun i found =>
            (rescanFiles env paths i).map (found.toList ++ ·)

/-- **Reads the declaration files again that have changed.** -/
def rescan (i : Instance) (env : Surroundings) : Outcome Instance (List Invalidation) :=
  rescanFiles env (i.workspace.files.declarations.map TrackedFile.path) i

end Instance

end TypeScriptEngine
