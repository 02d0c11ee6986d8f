import TypeScriptEngine.Path.Basic

/-!
# Normal paths

Dots are dropped and a segment `..` takes back the name before it; at the root it means nothing, and
at the head of a relative path it stays.  All of this is decided by the text of the path, without
looking at any file.
-/

namespace TypeScriptEngine.Path

/-- What remains of the segments walked so far, the last one first, after one more. -/
def step : List Segment → Segment → List Segment
  | _, .root => [.root]
  | walked, .here => walked
  | .name _ :: walked, .up => walked
  | [.root], .up => [.root]
  | walked, .up => .up :: walked
  | walked, .name text => .name text :: walked

/-- Segments without dots, and without names that are taken back. -/
def normalSegments (segments : List Segment) : List Segment :=
  (segments.foldl step []).reverse

/-- The normal form of a path.  If nothing remains it is a dot. -/
def normalize (p : Path) : Path :=
  match normalSegments p.segments with
  | [] => ⟨"."⟩
  | segments => ofSegments segments

/-- The segments that lead from a directory to a target, given the segments of both. -/
def relativeSegments : List Segment → List Segment → List Segment
  | a :: base, b :: target =>
    if a = b then relativeSegments base target
    else ((a :: base).filter (· ≠ .here)).map (fun _ => .up) ++ b :: target
  | base, target => (base.filter (· ≠ .here)).map (fun _ => .up) ++ target

/-- A path as seen from a base directory.  If only one of them is absolute, the path itself. -/
def relativeTo (base target : Path) : Path :=
  let base := base.normalize
  let target := target.normalize
  if base.isAbsolute ≠ target.isAbsolute then target
  else ofSegments (relativeSegments base.segments target.segments)

/-- The text of a path with forward slashes, which match patterns see. -/
def slashed (p : Path) : String := p.text

/-- Whether a file name is one of a declaration file. -/
def isDeclarationName (name : String) : Bool :=
  name.endsWith ".d.ts" || name.endsWith ".d.mts" || name.endsWith ".d.cts"

/-- Whether a path names a declaration file, which has types but no code. -/
def isDeclaration (p : Path) : Bool := (p.fileName?).any isDeclarationName

end TypeScriptEngine.Path
