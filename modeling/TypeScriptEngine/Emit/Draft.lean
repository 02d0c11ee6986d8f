import TypeScriptEngine.Emit.Edit
import TypeScriptEngine.Token.Statement

/-!
# Drafts

An emission is a walk over the tokens that proposes **changes**, and a `Draft` collects them.  A
token that a change has claimed is not visited again, and is not erased a second time.
-/

namespace TypeScriptEngine.Emit

/-- A proposal of the walk.  Ranges are of token indices, and do not hold their end. -/
inductive Change where
  /-- Removes the tokens of a range that are not claimed yet. -/
  | erase (first stop : Nat)
  /-- Puts a text in the place of a range. -/
  | replace (first stop : Nat) (text : String)
  /-- Puts a text behind a token. -/
  | insertAfter (i : Nat) (text : String)
  /-- Leaves a range as it is. -/
  | claim (first stop : Nat)
  /-- Marks the brace at an index as that of a class. -/
  | openClassBody (i : Nat)
  /-- Uses up a serial number of generated names. -/
  | useTemporary
deriving DecidableEq, Repr

/-- The changes collected so far. -/
structure Draft where
  /-- For each token, whether a change has claimed it. -/
  claimed : Array Bool
  /-- The edits, the last one first. -/
  edits : List Edit
  /-- The indices of braces that open the body of a class. -/
  classBodies : List Nat
  /-- How many names were generated. -/
  temporaries : Nat
deriving Repr

namespace Draft

/-- The draft before any change. -/
def empty (ts : TokenStream) : Draft where
  claimed := Array.replicate ts.length false
  edits := []
  classBodies := []
  temporaries := 0

/-- Whether a token is claimed. -/
def isClaimed (d : Draft) (i : Nat) : Bool := d.claimed.getD i false

/-- Claims the `n` tokens from `first` on. -/
def claimTokens (d : Draft) (first : Nat) : Nat → Draft
  | 0 => d
  | n + 1 => claimTokens { d with claimed := d.claimed.setIfInBounds first true } (first + 1) n

/-- The maximal runs of unclaimed tokens among the `n` from `i` on, of which `run?` is where the
run before `i` began, if there is one. -/
def freeRuns (d : Draft) (i : Nat) (run? : Option Nat) : Nat → List (Nat × Nat)
  | 0 => (run?.map fun first => (first, i)).toList
  | n + 1 =>
    if d.isClaimed i then
      (run?.map fun first => (first, i)).toList ++ freeRuns d (i + 1) none n
    else freeRuns d (i + 1) (some (run?.getD i)) n

/-- Adds an edit from the start of a token up to the end of another one. -/
def addEdit (d : Draft) (ts : TokenStream) (first last : Nat) (text : String) : Draft :=
  { d with edits := ⟨ts.startOf first, ts.stopOf last, text.toList⟩ :: d.edits }

/-- Carries out a change. -/
def apply (ts : TokenStream) (d : Draft) : Change → Draft
  | .erase first stop =>
    let n := min stop ts.last - first
    let d' := (d.freeRuns first none n).foldl (fun d run => d.addEdit ts run.1 (run.2 - 1) "") d
    d'.claimTokens first n
  | .replace first stop text =>
    let stop := max (min stop ts.last) (first + 1)
    (d.addEdit ts first (stop - 1) text).claimTokens first (stop - first)
  | .insertAfter i text =>
    let pos := ts.stopOf i
    { d with edits := ⟨pos, pos, text.toList⟩ :: d.edits }
  | .claim first stop => d.claimTokens first (stop - first)
  | .openClassBody i => { d with classBodies := i :: d.classBodies }
  | .useTemporary => { d with temporaries := d.temporaries + 1 }

/-- Carries out changes in order. -/
def applyAll (ts : TokenStream) (d : Draft) (changes : List Change) : Draft :=
  changes.foldl (apply ts) d

/-- The text with all edits carried out. -/
def finish (d : Draft) (text : List Char) : List Char := Edit.applyAll d.edits.reverse text

end Draft

end TypeScriptEngine.Emit
