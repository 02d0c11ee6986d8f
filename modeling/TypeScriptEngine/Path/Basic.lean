import TypeScriptEngine.Text.Split

/-!
# Paths

A `Path` is kept as it is spelled, and means its **segments**: the parts between slashes, without
the empty ones and without dots, except for a dot that begins a relative path.  Two paths are the
same (`==`) if they have the same segments, and paths are ordered segment by segment.
-/

namespace TypeScriptEngine

/-- A segment of a path. -/
inductive Segment where
  /-- The slash at the head of an absolute path. -/
  | root
  /-- The current directory. -/
  | here
  /-- The parent directory. -/
  | up
  /-- A name. -/
  | name (text : String)
deriving DecidableEq, Repr

namespace Segment

/-- The spelling of a segment. -/
def text : Segment → String
  | root => "/"
  | here => "."
  | up => ".."
  | name text => text

/-- The place of a segment's sort in the order. -/
def rank : Segment → Nat
  | root => 0
  | here => 1
  | up => 2
  | name _ => 3

/-- Segments are ordered by sort, and names by their characters. -/
def compare : Segment → Segment → Ordering
  | name a, name b => Ord.compare a b
  | a, b => Ord.compare a.rank b.rank

/-- The segment of a part between slashes.  Empty parts and dots have none. -/
def ofPart? (part : List Char) : Option Segment :=
  if part = [] ∨ part = ['.'] then none
  else if part = ['.', '.'] then some up
  else some (name (String.ofList part))

/-- The name of a segment that has one. -/
def name? : Segment → Option String
  | name text => some text
  | _ => none

end Segment

/-- A path as it is spelled. -/
structure Path where
  text : String
deriving Repr, Inhabited

namespace Path

/-- The segments of a spelled path. -/
def segmentsOf (cs : List Char) : List Segment :=
  let names := (Text.splitOn '/' cs).filterMap Segment.ofPart?
  match cs with
  | '/' :: _ => .root :: names
  | ['.'] => [.here]
  | '.' :: '/' :: _ => .here :: names
  | _ => names

/-- The segments of a path. -/
def segments (p : Path) : List Segment := segmentsOf p.text.toList

/-- Paths with the same segments are the same. -/
instance : BEq Path := ⟨fun p q => p.segments == q.segments⟩

theorem beq_iff {p q : Path} : (p == q) = true ↔ p.segments = q.segments := by
  show (p.segments == q.segments) = true ↔ _
  simp

instance : EquivBEq Path where
  rfl := beq_iff.2 rfl
  symm h := beq_iff.2 (beq_iff.1 h).symm
  trans h h' := beq_iff.2 ((beq_iff.1 h).trans (beq_iff.1 h'))

/-- The order of paths. -/
def compare (p q : Path) : Ordering := List.compareLex Segment.compare p.segments q.segments

/-- Whether a path does not come after another. -/
def le (p q : Path) : Bool := (p.compare q).isLE

/-- Whether a path begins at the root. -/
def isAbsolute (p : Path) : Bool := p.text.toList.head? == some '/'

/-- A path followed by another one.  An absolute path replaces the first, and an empty one leaves
it with a slash at its end. -/
def join (p q : Path) : Path :=
  if q.isAbsolute then q
  else
    let cs := p.text.toList
    if cs = [] ∨ cs.getLast? = some '/' then ⟨p.text ++ q.text⟩
    else ⟨p.text ++ "/" ++ q.text⟩

/-- Segments written one after the other, with a slash between two names. -/
def ofSegments (segments : List Segment) : Path :=
  segments.foldl (fun p s => p.join ⟨s.text⟩) ⟨""⟩

/-- The number of characters at the head of a path that stand for the root or the current
directory. -/
def headLength : List Char → Nat
  | '/' :: _ => 1
  | ['.'] => 1
  | '.' :: '/' :: _ => 1
  | _ => 0

/-- The characters behind the last slash of a text. -/
def lastPart (cs : List Char) : List Char := (cs.reverse.takeWhile (· != '/')).reverse

/-- A path without its last part and the slash before it. -/
def dropLastPart (head : Nat) (cs : List Char) : List Char :=
  let part := lastPart (cs.drop head)
  cs.take (max head (cs.length - part.length - 1))

/-- Removes slashes and dots at the end of a path that mean nothing.  Of what remains, at least
`head` characters are kept. -/
def trimEnd (head : Nat) (cs : List Char) : List Char :=
  if cs.length ≤ head then cs
  else
    let part := lastPart (cs.drop head)
    if part = [] ∨ part = ['.'] then trimEnd head (dropLastPart head cs) else cs
termination_by cs.length
decreasing_by simp only [dropLastPart, List.length_take]; omega

/-- The directory that holds a path.  A root and an empty path have none, and what has a single
name lies in the empty path. -/
def parent? (p : Path) : Option Path :=
  let head := headLength p.text.toList
  let cs := trimEnd head p.text.toList
  if head < cs.length then some ⟨String.ofList (trimEnd head (dropLastPart head cs))⟩
  else if cs.head? = some '.' then some ⟨""⟩
  else none

/-- The last segment if it is a name. -/
def fileName? (p : Path) : Option String := p.segments.getLast?.bind Segment.name?

/-- A file name cut at its last dot: the stem, and what follows the dot.  A name without a dot, or
with only one at its head, is all stem. -/
def splitName (name : List Char) : List Char × Option (List Char) :=
  let extension := (name.reverse.takeWhile (· != '.')).reverse
  if extension.length + 1 < name.length then
    (name.take (name.length - extension.length - 1), some extension)
  else (name, none)

/-- What follows the last dot of the file name. -/
def extension? (p : Path) : Option String :=
  p.fileName?.bind fun name => (splitName name.toList).2.map String.ofList

/-- A path with another extension, which is appended if there was none.  A path without a file name
stays as it is. -/
def withExtension (p : Path) (extension : String) : Path :=
  match p.fileName? with
  | none => p
  | some name =>
    let cs := trimEnd (headLength p.text.toList) p.text.toList
    let directory := cs.take (cs.length - name.length)
    ⟨String.ofList (directory ++ (splitName name.toList).1) ++ "." ++ extension⟩

/-- A path and its parents, from the inside out, at most `fuel` of them. -/
def ancestorsUpTo : Nat → Path → List Path
  | 0, p => [p]
  | fuel + 1, p => p :: (p.parent?).elim [] (ancestorsUpTo fuel)

/-- A path, its parent, and so on. -/
def ancestors (p : Path) : List Path := ancestorsUpTo p.text.length p

/-- Whether the segments of a path begin with those of another. -/
def startsWith (p q : Path) : Bool := q.segments.isPrefixOf p.segments

end Path

end TypeScriptEngine

/-! ## Paths below a directory

What is left of the spelling of a path when the segments of a directory are taken off its head.
-/

namespace TypeScriptEngine.Path

/-- A spelling without the slashes and dots at its head that mean nothing. -/
def trimHead : List Char → List Char
  | '/' :: cs => trimHead cs
  | '.' :: '/' :: cs => trimHead cs
  | ['.'] => []
  | cs => cs

/-- A spelling without its first segment. -/
def dropSegment (cs : List Char) (segment : Segment) : List Char :=
  match segment with
  | .root | .here => cs.drop 1
  | .up | .name _ => (trimHead cs).dropWhile (· != '/')

/-- The part of a path below a directory, if it lies there. -/
def below? (directory p : Path) : Option Path :=
  if p.startsWith directory then
    let rest := trimHead (directory.segments.foldl dropSegment p.text.toList)
    some ⟨String.ofList (trimEnd 0 rest)⟩
  else none

end TypeScriptEngine.Path
