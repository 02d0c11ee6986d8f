/-!
# Path patterns

A pattern is read into tokens: literal characters, wildcards, character classes, and groups of
alternatives.  Two stars that fill a whole segment stand for any number of segments; which of the
three recursive tokens they become depends on what is before and behind them.
-/

namespace TypeScriptEngine

/-- A token of a pattern. -/
inductive GlobToken where
  | literal (c : Char)
  /-- Any one byte. -/
  | anyByte
  /-- Any number of bytes. -/
  | star
  /-- Any number of leading segments. -/
  | leadingSegments
  /-- Any number of segments between two others. -/
  | innerSegments
  /-- Anything below a directory. -/
  | trailingSegments
  /-- One byte of some ranges of characters, or of none of them. -/
  | oneOf (negated : Bool) (ranges : List (Char × Char))
  | alternatives (branches : List (List GlobToken))
deriving Repr

/-- What is wrong with a pattern. -/
inductive GlobFault where
  | unclosedClass
  | unclosedGroup
  | unopenedGroup
  | danglingEscape
  | invalidRange (first last : Char)
deriving DecidableEq, Repr

/-- The wording of a fault. -/
def GlobFault.message : GlobFault → String
  | unclosedClass => "unclosed character class; missing ']'"
  | unclosedGroup =>
    "unclosed alternate group; missing '\x7d' (maybe escape '\x7b' with '[\x7b]'?)"
  | unopenedGroup =>
    "unopened alternate group; missing '\x7b' (maybe escape '\x7d' with '[\x7d]'?)"
  | danglingEscape => "dangling '\\'"
  | invalidRange first last =>
    String.ofList ("invalid range; '".toList ++ [first] ++ "' > '".toList ++ [last, '\''])

/-- A pattern that cannot be read. -/
structure GlobError where
  pattern : String
  fault : GlobFault
deriving DecidableEq, Repr

/-- The wording of the error. -/
def GlobError.message (e : GlobError) : String :=
  "error parsing glob '" ++ e.pattern ++ "': " ++ e.fault.message

namespace Glob

/-! ## Character classes -/

/-- A character class as far as it is read, its last range first. -/
structure ClassDraft where
  /-- Whether nothing is read yet, so that a bracket or a hyphen is a character. -/
  first : Bool
  /-- Whether a hyphen waits for the end of a range. -/
  inRange : Bool
  ranges : List (Char × Char)
deriving DecidableEq, Repr

/-- A class with one more character. -/
def ClassDraft.add (d : ClassDraft) (c : Char) : Except GlobFault ClassDraft :=
  match d.inRange, d.ranges with
  | true, (first, _) :: ranges =>
    if c < first then .error (.invalidRange first c)
    else .ok ⟨false, false, (first, c) :: ranges⟩
  | _, ranges => .ok ⟨false, false, (c, c) :: ranges⟩

/-- The ranges of a class that is closed.  A hyphen that still waits is a character. -/
def ClassDraft.close (d : ClassDraft) : List (Char × Char) :=
  (if d.inRange then ('-', '-') :: d.ranges else d.ranges).reverse

/-- The ranges of a class from some character on, and how many characters are left to it. -/
def readClass (d : ClassDraft) : List Char → Except GlobFault (List (Char × Char) × Nat)
  | [] => .error .unclosedClass
  | c :: rest => do
    if c = ']' ∧ !d.first then return (d.close, 1)
    let d ← if c = '-' ∧ !d.first ∧ !d.inRange then pure { d with inRange := true } else d.add c
    let (ranges, n) ← readClass d rest
    return (ranges, n + 1)

/-- The class behind an opening bracket, and how many characters are left to it. -/
def classToken (cs : List Char) : Except GlobFault (GlobToken × Nat) := do
  let negated := cs.head? == some '!' || cs.head? == some '^'
  let skip := if negated then 1 else 0
  let (ranges, n) ← readClass ⟨true, false, []⟩ (cs.drop skip)
  return (.oneOf negated ranges, skip + n)

/-! ## Patterns -/

/-- A group that is open: what comes before it in its own branch, and its finished branches; the
last ones come first. -/
structure Group where
  before : List GlobToken
  branches : List (List GlobToken)
deriving Repr

/-- A pattern as far as it is read: the tokens of the current branch, the last one first, and the
open groups, the innermost one first. -/
structure Draft where
  tokens : List GlobToken
  groups : List Group
deriving Repr

namespace Draft

/-- Adds a token to the current branch. -/
def push (d : Draft) (t : GlobToken) : Draft := { d with tokens := t :: d.tokens }

/-- Opens a group. -/
def openGroup (d : Draft) : Draft := ⟨[], ⟨d.tokens, []⟩ :: d.groups⟩

/-- Goes on to the next branch.  Outside groups a comma stands for itself. -/
def comma (d : Draft) : Draft :=
  match d.groups with
  | [] => d.push (.literal ',')
  | g :: groups => ⟨[], { g with branches := d.tokens.reverse :: g.branches } :: groups⟩

/-- Closes a group. -/
def closeGroup (d : Draft) : Except GlobFault Draft :=
  match d.groups with
  | [] => .error .unopenedGroup
  | g :: groups =>
    .ok ⟨.alternatives (d.tokens.reverse :: g.branches).reverse :: g.before, groups⟩

/-- Puts a recursive token in the place of the separator that was read last. -/
def recurse (d : Draft) (t : GlobToken) : Draft :=
  match d.tokens with
  | .leadingSegments :: _ | .trailingSegments :: _ => d
  | _ :: tokens => { d with tokens := t :: tokens }
  | [] => d.push t

/-- Whether two stars behind the character `previous` begin a segment. -/
def beginsSegment (d : Draft) (previous : Option Char) : Bool :=
  previous == some '/' ||
    (!d.groups.isEmpty && (previous == some ',' || previous == some '{'))

/-- Reads two stars, given the character before them and the text behind them; tells how many
characters of that text they take. -/
def twoStars (d : Draft) (previous : Option Char) (rest : List Char) : Draft × Nat :=
  let plain := (d.push .star).push .star
  if d.tokens.isEmpty then
    match rest with
    | [] => (d.push .leadingSegments, 0)
    | '/' :: _ => (d.push .leadingSegments, 1)
    | _ => (plain, 0)
  else if !d.beginsSegment previous then (plain, 0)
  else
    match rest with
    | [] => (d.recurse .trailingSegments, 0)
    | '/' :: _ => (d.recurse .innerSegments, 1)
    | c :: _ =>
      if (c = ',' ∨ c = '}') ∧ !d.groups.isEmpty then (d.recurse .trailingSegments, 0)
      else (plain, 0)

end Draft

/-- Reads a pattern on, from the character behind `previous`. -/
def read (d : Draft) (previous : Option Char) (cs : List Char) :
    Except GlobFault (List GlobToken) :=
  match cs with
  | [] => if d.groups.isEmpty then .ok d.tokens.reverse else .error .unclosedGroup
  | c :: rest =>
    match c with
    | '?' => read (d.push .anyByte) (some c) rest
    | '*' =>
      if rest.head? = some '*' then
        let (d', n) := d.twoStars previous (rest.drop 1)
        read d' (if n = 0 then some '*' else some '/') ((rest.drop 1).drop n)
      else read (d.push .star) (some c) rest
    | '[' =>
      match classToken rest with
      | .ok (t, n) => read (d.push t) (some ']') (rest.drop n)
      | .error fault => .error fault
    | '{' => read d.openGroup (some c) rest
    | '}' =>
      match d.closeGroup with
      | .ok d' => read d' (some c) rest
      | .error fault => .error fault
    | ',' => read d.comma (some c) rest
    | '\\' =>
      match rest with
      | [] => .error .danglingEscape
      | escaped :: rest => read (d.push (.literal escaped)) (some escaped) rest
    | c => read (d.push (.literal c)) (some c) rest
termination_by cs.length
decreasing_by all_goals grind

/-- A pattern without the current directory at its head. -/
def withoutHere : List Char → List Char
  | '.' :: '/' :: cs => withoutHere cs
  | cs => cs

/-- The tokens of a pattern. -/
def ofText (pattern : String) : Except GlobError (List GlobToken) :=
  match read ⟨[], []⟩ none pattern.toList with
  | .ok tokens => .ok tokens
  | .error fault => .error ⟨pattern, fault⟩

end Glob

end TypeScriptEngine
