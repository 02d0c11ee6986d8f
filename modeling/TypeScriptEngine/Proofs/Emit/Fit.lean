import TypeScriptEngine.Proofs.Emit.Erasing
import TypeScriptEngine.Proofs.Emit.Walk
import TypeScriptEngine.Proofs.Token.Layout

/-! # Changes that fit

What is proposed for a token rewrites or claims only ranges that begin among the tokens and go
forward (`allFit_visit`).  Therefore every edit of an emission replaces a part of its text by
characters: it begins and ends between characters, and does not end before it begins
(`cuts_of_mem_walk`).
-/

namespace TypeScriptEngine

open TypeScriptEngine.Text TokenStream

namespace Emit

variable {goal : Goal} {ts : TokenStream} {d : Draft} {c : Change} {changes : List Change}
  {e : Edit} {i stop temporaries : Nat}

/-! ## The ranges of changes -/

/-- A range that a change rewrites or claims begins at a token before the end of the text, and goes
forward. -/
def Change.Fits (ts : TokenStream) : Change → Prop
  | .replace first _ _ => first < ts.last
  | .claim first stop => first < ts.last ∧ first ≤ stop
  | .erase .. | .insertAfter .. | .openClassBody _ | .useTemporary => True

@[simp] theorem fits_erase (first stop : Nat) : (Change.erase first stop).Fits ts := trivial

@[simp] theorem fits_insertAfter (i : Nat) (text : String) : (Change.insertAfter i text).Fits ts :=
  trivial

@[simp] theorem fits_useTemporary : Change.useTemporary.Fits ts := trivial

@[simp] theorem fits_replace (first stop : Nat) (text : String) :
    (Change.replace first stop text).Fits ts ↔ first < ts.last := Iff.rfl

@[simp] theorem fits_claim (first stop : Nat) :
    (Change.claim first stop).Fits ts ↔ first < ts.last ∧ first ≤ stop := Iff.rfl

/-- All changes fit. -/
def AllFit (ts : TokenStream) (changes : List Change) : Prop := ∀ c ∈ changes, c.Fits ts

@[simp] theorem allFit_nil : AllFit ts [] := fun _ h => by contradiction

@[simp] theorem allFit_cons : AllFit ts (c :: changes) ↔ c.Fits ts ∧ AllFit ts changes :=
  List.forall_mem_cons

@[simp] theorem allFit_append {changes' : List Change} :
    AllFit ts (changes ++ changes') ↔ AllFit ts changes ∧ AllFit ts changes' :=
  List.forall_mem_append

theorem Removing.allFit (h : Removing changes) : AllFit ts changes := by
  intro c hc
  cases c with
  | erase first stop => trivial
  | openClassBody i => trivial
  | _ => exact absurd (h _ hc) Bool.false_ne_true

@[simp] theorem allFit_eraseTypes (specifiers : List Specifier) :
    AllFit ts (Specifier.eraseTypes specifiers) := by
  intro c hc
  obtain ⟨s, _, rfl⟩ := List.mem_map.mp hc
  trivial

/-- The name that a declaration may use up leaves the rest as it is. -/
theorem allFit_temporary {used : Bool} (h : AllFit ts changes) :
    AllFit ts ((if used then [.useTemporary] else []) ++ changes) := by
  cases used <;> simp [h]

theorem le_pastStatement (ts : TokenStream) (i : Nat) : i ≤ ts.pastStatement i :=
  Nat.le_add_right ..

theorem allFit_importEquals (hi : i < ts.last) : AllFit ts (importEquals goal ts i stop) := by
  unfold importEquals
  simp only
  split
  · simp [hi]
  · simp [hi]

theorem allFit_importDeclaration (hi : i < ts.last) :
    AllFit ts (importDeclaration goal ts temporaries i).changes := by
  have hstop := le_pastStatement ts i
  unfold importDeclaration
  simp only
  split
  · simp
  split
  · exact allFit_importEquals hi
  split
  · exact allFit_temporary (by simp [hi])
  · simp [hi, hstop]
  · simp [hi, hstop]

theorem allFit_exportBehind (i name : Nat) (close? : Option Nat) :
    AllFit ts (exportBehind ts i name close?) := by
  cases close? <;> simp [exportBehind]

theorem allFit_exportDefault (hi : i < ts.last) : AllFit ts (exportDefault ts i) := by
  unfold exportDefault
  simp only
  split
  · split <;> simp [hi]
  · simp [hi]

theorem allFit_exportStar (hi : i < ts.last) (hstop : i ≤ stop) :
    AllFit ts (exportStar goal ts temporaries i stop) := by
  unfold exportStar
  simp only
  split
  · simp [hi, hstop]
  · split <;> simp [hi]

theorem allFit_exportCommonJs (hi : i < ts.last) :
    AllFit ts (exportCommonJs goal ts temporaries i).changes := by
  have hstop := le_pastStatement ts i
  unfold exportCommonJs
  simp only
  cases ts.kind (i + 1) with
  | kwFunction | kwAsync | kwClass | kwAbstract => exact allFit_exportBehind _ _ _
  | kwDefault => exact allFit_exportDefault hi
  | lbrace => exact allFit_temporary (by simp [hi])
  | star => exact allFit_exportStar hi hstop
  | _ => simp [hi]

theorem allFit_exportEsModule (hi : i < ts.last) : AllFit ts (exportEsModule ts i).changes := by
  have hstop := le_pastStatement ts i
  unfold exportEsModule
  simp only
  split <;> simp [hi, hstop]

theorem allFit_exportDeclaration (hi : i < ts.last) :
    AllFit ts (exportDeclaration goal ts temporaries i).changes := by
  unfold exportDeclaration
  simp only
  split
  · simp
  · split
    · exact allFit_exportCommonJs hi
    · exact allFit_exportEsModule hi

/-- **What a visit proposes fits.** -/
theorem allFit_visit (hi : i < ts.last) : AllFit ts (visit goal ts d i).changes := by
  cases himport : beginsImport ts i with
  | true =>
    rw [visit_of_beginsImport himport]
    exact allFit_importDeclaration hi
  | false =>
    cases hexport : beginsExport ts i with
    | true =>
      rw [visit_of_beginsExport hexport]
      exact allFit_exportDeclaration hi
    | false => exact (removing_visit himport hexport).allFit

/-! ## The places of edits -/

/-- An edit that replaces a part of a text by characters. -/
structure Cuts (text : List Char) (e : Edit) : Prop where
  start : Boundary text e.start
  stop : Boundary text e.stop
  le : e.start ≤ e.stop

/-- A position behind a token lies between characters, also where there is no such token. -/
theorem boundary_behind (text : String) (i : Nat) :
    Boundary text.toList (stopOf (Scan.ofText text).tokens i) := by
  by_cases hi : i < (Scan.ofText text).tokens.length
  · exact boundary_stopOf hi
  · rw [stopOf, List.getElem?_eq_none (Nat.not_lt.mp hi), Option.elim, textLength]
    cases hlast : (Scan.ofText text).tokens.getLast? with
    | none => exact ⟨[], List.nil_prefix, rfl⟩
    | some t => exact (Scan.boundary_of_slice (Scan.slice_ofText (List.mem_of_getLast? hlast))).2

theorem cuts_of_makes {text : String} (hfits : c.Fits (Scan.ofText text).tokens)
    (h : c.Makes (Scan.ofText text).tokens e) : Cuts text.toList e := by
  have hlast : last (Scan.ofText text).tokens ≤ (Scan.ofText text).tokens.length := Nat.sub_le ..
  cases c with
  | erase first stop =>
    obtain ⟨a, b, _, hab, hb, rfl⟩ := h
    have hlt : b - 1 < (Scan.ofText text).tokens.length := by omega
    exact ⟨boundary_startOf (by omega), boundary_stopOf hlt, startOf_le_stopOf (by omega) hlt⟩
  | replace first stop newText =>
    obtain rfl := h
    have hfirst := (fits_replace ..).mp hfits
    have hlt : max (min stop (last (Scan.ofText text).tokens)) (first + 1) - 1 <
        (Scan.ofText text).tokens.length := by omega
    exact ⟨boundary_startOf (by omega), boundary_stopOf hlt, startOf_le_stopOf (by omega) hlt⟩
  | insertAfter i text =>
    obtain rfl := h
    exact ⟨boundary_behind _ i, boundary_behind _ i, Nat.le_refl _⟩
  | claim first stop => contradiction
  | openClassBody i => contradiction
  | useTemporary => contradiction

/-- **The edits of an emission cut its text between characters.** -/
theorem cuts_of_mem_walk {text : String}
    (h : e ∈ (walk goal (Scan.ofText text).tokens (firstDraft goal (Scan.ofText text).tokens)
      0).edits) : Cuts text.toList e := by
  rcases mem_edits_walk h with ⟨_, rfl⟩ | ⟨d, i, hvisits, c, hc, hmakes⟩
  · have hzero : Boundary text.toList 0 := ⟨[], List.nil_prefix, rfl⟩
    exact ⟨hzero, hzero, Nat.le_refl 0⟩
  · exact cuts_of_makes (allFit_visit hvisits.lt_last c hc) hmakes

end Emit

end TypeScriptEngine
