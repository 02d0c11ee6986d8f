import TypeScriptEngine.Proofs.Emit.Marker
import TypeScriptEngine.Reference

/-! # The words of a module as names of members

Behind a dot, `import` and `export` are names of members.  If they are nothing else in a text, then no
reference is read off its tokens and no declaration is rewritten (`member_words_make_no_module`).  The
test for a module does look for the dot before an `import`, but not for the one before an `export`: a
member of that name outside all brackets makes a script a module (`member_word_makes_module`).
-/

namespace TypeScriptEngine

open TokenStream
open Emit (beginsImport beginsExport depthAt program moduleMarker)

/-- Every word `import` or `export` is the name of a member. -/
def MemberWords (ts : TokenStream) : Prop :=
  ∀ i < ts.length, ts.kind i = .kwImport ∨ ts.kind i = .kwExport → ts.followsDot i = true

instance (ts : TokenStream) : Decidable (MemberWords ts) :=
  inferInstanceAs (Decidable (∀ i < ts.length, _ → _))

namespace MemberWords

variable {ts rest : TokenStream} {i : Nat}

theorem followsDot (h : MemberWords ts) (hword : ts.kind i = .kwImport ∨ ts.kind i = .kwExport) :
    ts.followsDot i = true := by
  refine h i (lt_length_of_kind fun hend => ?_) hword
  rw [hend] at hword
  exact hword.elim (fun h => by contradiction) fun h => by contradiction

/-- The name of a member makes no reference. -/
theorem ofTokens_eq_nil (h : MemberWords ts) {previous : TokenKind} (hrest : ts.drop i = rest)
    (hprevious : previous.isDot = ts.followsDot i) : Reference.ofTokens previous rest = [] := by
  -- on the tokens that are left: only words that follow no dot make references
  induction rest generalizing i previous with
  | nil => rfl
  | cons t rest ih =>
    obtain ⟨-, hkind, hnext⟩ := TokenStream.of_drop_eq_cons hrest
    have hbehind : Reference.ofTokens t.kind rest = [] := ih hnext (congrArg _ hkind.symm)
    rw [Reference.ofTokens, hprevious, hbehind, List.append_nil]
    cases hdot : ts.followsDot i with
    | true => rfl
    | false =>
      have hother : ¬ (t.kind = .kwImport ∨ t.kind = .kwExport) := fun hword =>
        Bool.false_ne_true (hdot.symm.trans (h.followsDot (hkind ▸ hword)))
      cases hword : t.kind with
      | kwImport => exact absurd (.inl hword) hother
      | kwExport => exact absurd (.inr hword) hother
      | _ => rfl

/-- The name of a member begins no declaration. -/
theorem noDeclarations (h : MemberWords ts) : Emit.NoDeclarations ts := by
  have hstart (i : Nat) (hword : ts.kind i = .kwImport ∨ ts.kind i = .kwExport) :
      ts.startsStatement i = false := startsStatement_of_followsDot (h.followsDot hword)
  refine fun i => ⟨Bool.eq_false_iff.mpr fun himport => ?_, Bool.eq_false_iff.mpr fun hexport => ?_⟩
  · simp only [beginsImport, Bool.and_eq_true, beq_iff_eq] at himport
    obtain ⟨⟨⟨⟨hkind, hstarts⟩, -⟩, -⟩, -⟩ := himport
    exact Bool.false_ne_true ((hstart i (.inl hkind)).symm.trans hstarts)
  · simp only [beginsExport, Bool.and_eq_true, beq_iff_eq] at hexport
    obtain ⟨⟨hkind, hstarts⟩, -⟩ := hexport
    exact Bool.false_ne_true ((hstart i (.inr hkind)).symm.trans hstarts)

/-- Only the name `export` makes the text a module, where it stands outside all brackets. -/
theorem isModule_iff (h : MemberWords ts) :
    ts.isModule = true ↔ ∃ i, ts.kind i = .kwExport ∧ depthAt ts i = 0 := by
  rw [TokenStream.isModule_iff]
  refine exists_congr fun i => ⟨?_, fun ⟨hkind, hdepth⟩ => ⟨hdepth, .inl hkind⟩⟩
  rintro ⟨hdepth, hkind | ⟨hkind, -, -, hdot⟩⟩
  · exact ⟨hkind, hdepth⟩
  · exact absurd (hdot.symm.trans (h.followsDot (.inl hkind))) Bool.false_ne_true

end MemberWords

/-- **Names of members make no references and no declarations.**  In a text in which `import` and
`export` are names of members only, all references are those of its directives, and the code is the
same for every module system, but for a marker that CommonJS puts before a module.  It is a module
just if a member with the name `export` is read outside all brackets. -/
theorem member_words_make_no_module (text : String) (h : MemberWords (Scan.ofText text).tokens) :
    let ts : TokenStream := (Scan.ofText text).tokens
    (ts.isModule = true ↔ ∃ i, ts.kind i = .kwExport ∧ depthAt ts i = 0) ∧
    (FileReferences.ofText text).references =
      ((Reference.leadingComments (Scan.ofText text)).map Reference.ofComment).flatMap
        FileReferences.references ∧
    ∀ module target, program (.of module target) ts text.toList =
      (if !module.isEsModule && ts.isModule then moduleMarker.toList else []) ++
        program (.of .esNext .esNext) ts text.toList := by
  refine ⟨h.isModule_iff, ?_, fun module target => ?_⟩
  · have htokens := @MemberWords.ofTokens_eq_nil _ (Scan.ofText text).tokens 0 h .eof rfl rfl
    change _ ++ Reference.ofTokens .eof (Scan.ofText text).tokens = _
    rw [htokens, List.append_nil]
  · exact Emit.program_of_no_declarations h.noDeclarations rfl text.toList

/-- A text that reads members of both names, each in brackets. -/
def memberCalls : String :=
  "/// <reference path='a.d.ts'/>\nif (b.import('c')) \x7b d?.export(); e.f! \x7d\n"

theorem member_words_make_no_module_memberCalls :
    MemberWords (Scan.ofText memberCalls).tokens ∧
      TokenStream.isModule (Scan.ofText memberCalls).tokens = false ∧
      program (.of .commonJs .es5) (Scan.ofText memberCalls).tokens memberCalls.toList =
        program (.of .esNext .esNext) (Scan.ofText memberCalls).tokens memberCalls.toList := by
  have hfacts : MemberWords (Scan.ofText memberCalls).tokens ∧
      TokenStream.isModule (Scan.ofText memberCalls).tokens = false := by decide +kernel
  obtain ⟨-, -, hcode⟩ := member_words_make_no_module memberCalls hfacts.1
  have hcode := hcode .commonJs .es5
  rw [hfacts.2, Bool.and_false, if_neg Bool.false_ne_true, List.nil_append] at hcode
  exact ⟨hfacts.1, hfacts.2, hcode⟩

/-- **A call of a member with the name `export` makes a text a module,** and CommonJS code of it
begins with the marker of one. -/
theorem member_word_makes_module :
    let ts : TokenStream := (Scan.ofText "doc.export();").tokens
    MemberWords ts ∧ ts.isModule = true ∧
      program (.of .commonJs .es5) ts "doc.export();".toList =
        moduleMarker.toList ++ "doc.export();".toList := by
  decide +kernel

end TypeScriptEngine
