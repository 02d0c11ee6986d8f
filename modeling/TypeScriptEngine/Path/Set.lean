import TypeScriptEngine.Path.Basic

/-!
# Sets and maps of paths

Sets of paths are lists in ascending order; maps are lists of pairs in the order in which the paths
came in.  A path that is spelled in another way than one already there is the same path.
-/

namespace TypeScriptEngine.Path

/-- Adds a path to an ascending list, unless it is there already. -/
def insertInto (p : Path) : List Path → List Path
  | [] => [p]
  | q :: qs =>
    match p.compare q with
    | .lt => p :: q :: qs
    | .eq => q :: qs
    | .gt => q :: insertInto p qs

/-- An ascending list of the given paths. -/
def setOf (ps : List Path) : List Path := ps.foldl (fun set p => insertInto p set) []

variable {β : Type}

/-- The value of a path in a map. -/
def find? (p : Path) (map : List (Path × β)) : Option β :=
  (map.find? fun entry => entry.1 == p).map Prod.snd

/-- A map without a path. -/
def removeFrom (p : Path) (map : List (Path × β)) : List (Path × β) :=
  map.filter fun entry => !(entry.1 == p)

/-- A map in which the value of a path is `f` of the one it had. -/
def alter (p : Path) (f : Option β → β) : List (Path × β) → List (Path × β)
  | [] => [(p, f none)]
  | entry :: map =>
    if entry.1 == p then (entry.1, f (some entry.2)) :: map else entry :: alter p f map

end TypeScriptEngine.Path
