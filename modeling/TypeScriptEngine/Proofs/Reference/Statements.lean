import TypeScriptEngine.Proofs.Grammar.Module
import TypeScriptEngine.Reference

/-! # The references of a list of statements

The references of a file are read off its tokens without a parser: from the word `import` or
`export` on, a search runs ahead to the words and signs that decide.  Words that decide may be names
as well.  Each search stops within its own statement and finds the source of that statement, if it
has one (`importedBy?_statement`, `exportSource?_statement`), so that the references of a list of
statements are their sources, in order (`FileReferences.references_of_statements`).
-/

namespace TypeScriptEngine

open TypeScriptEngine.Text TokenStream ModuleSyntax

/-! ## Searching -/

namespace Reference

variable {place : Nat → TokenPlace} {k : Nat} {rest : TokenStream}

/-- The search for the source of an import passes over what it imports, the word `from` as a name
included. -/
theorem importSource?_append {as : List Atom} (has : ∀ a ∈ as, isClauseKind a.kind = true)
    (hrest : headKind rest ≠ .stringLiteral) :
    importSource? (stream place k (Atom.words as) ++ rest) = importSource? rest := by
  induction as generalizing k with
  | nil => rfl
  | cons a as ih =>
    obtain ⟨ha, has⟩ := List.forall_mem_cons.mp has
    have hhead : headKind (stream place (k + 1) (Atom.words as) ++ rest) ≠ .stringLiteral := by
      cases as with
      | nil => exact hrest
      | cons b bs =>
        intro h
        have hb := (List.forall_mem_cons.mp has).1
        exact absurd (h ▸ hb : isClauseKind .stringLiteral = true) (by decide)
    rw [Atom.words_cons, stream_cons, List.cons_append, importSource?, Word.token_kind,
      Atom.toWord_kind, ih has]
    split
    · exact if_neg hhead
    all_goals first | rfl | exact absurd (‹a.kind = _› ▸ ha) (by decide)

/-- The search for the end of a list passes over its entries. -/
theorem afterBraces?_append {as : List Atom} (has : ∀ a ∈ as, isListKind a.kind = true)
    (depth : Nat) : afterBraces? depth (stream place k (Atom.words as) ++ rest) =
      afterBraces? depth rest := by
  induction as generalizing k with
  | nil => rfl
  | cons a as ih =>
    obtain ⟨ha, has⟩ := List.forall_mem_cons.mp has
    rw [Atom.words_cons, stream_cons, List.cons_append, afterBraces?, Word.token_kind,
      Atom.toWord_kind, ih has]
    split
    all_goals first | rfl | exact absurd (‹a.kind = _› ▸ ha) (by decide)

theorem importedBy?_of_isClauseKind {ts : TokenStream} (h : isClauseKind (headKind ts) = true) :
    importedBy? ts = importSource? ts := by
  unfold importedBy?
  split
  all_goals first | rfl | exact absurd (‹headKind ts = _› ▸ h) (by decide)

/-- The source of an import is the literal behind the word `from` that is no name. -/
theorem importedBy?_clause {as : List Atom} (has : ∀ a ∈ as, isClauseKind a.kind = true)
    (hne : as ≠ []) (source : Source) (behind : List Atom) : ∃ p,
    importedBy? (stream place k (Atom.words (as ++ (fromClause source ++ behind))) ++ rest) =
      some (source.atom.toWord.token p) := by
  have hhead : isClauseKind (headKind
      (stream place k (Atom.words (as ++ (fromClause source ++ behind))) ++ rest)) = true := by
    cases as with
    | nil => contradiction
    | cons a as => exact (List.forall_mem_cons.mp has).1
  refine ⟨place (k + as.length + 1), ?_⟩
  rw [importedBy?_of_isClauseKind hhead, Atom.words_append, stream_append, List.append_assoc,
    importSource?_append has (fun h => by contradiction), Atom.words, List.length_map]
  rfl

/-- What stands behind a list is its source, if it has one. -/
theorem exportListSource?_list (list : NamedList) (behind : List Atom) : ∃ j,
    exportListSource? (stream place k (Atom.words (list.atoms ++ behind)) ++ rest) =
      fromClause? (stream place j (Atom.words behind) ++ rest) := by
  refine ⟨k + 1 + (Atom.words list.inner).length + 1, ?_⟩
  rw [NamedList.atoms, List.cons_append, Atom.words_cons, stream_cons, List.cons_append,
    exportListSource?]
  change Option.bind (afterBraces? 1 _) _ = _
  rw [List.append_assoc, Atom.words_append, stream_append, List.append_assoc,
    afterBraces?_append list.isListKind_inner]
  rfl

/-- A list that is marked as one of types is read like any other. -/
theorem exportSource?_list (typeOnly : Bool) (list : NamedList) (behind : List Atom) : ∃ j,
    exportSource? (stream place k (Atom.words (typeMark typeOnly ++ list.atoms ++ behind)) ++
      rest) = fromClause? (stream place j (Atom.words behind) ++ rest) := by
  rw [List.append_assoc]
  cases typeOnly with
  | false => exact exportListSource?_list list behind
  | true => exact @exportListSource?_list place (k + 1) rest list behind

/-! ## The references of a statement -/

/-- What a reference is, apart from where it stands. -/
def content (r : Reference) : ReferenceKind × String := (r.kind, r.specifier)

theorem ofTokens_cons_quiet {a : Atom} (ha : isQuiet a.kind = true) (previous : TokenKind)
    (p : TokenPlace) : ofTokens previous (a.toWord.token p :: rest) = ofTokens a.kind rest := by
  rw [ofTokens]
  simp only [Word.token_kind, Atom.toWord_kind]
  split
  · rfl
  · split
    all_goals first | rfl | exact absurd (‹a.kind = _› ▸ ha) (by decide)

/-- What begins no reference is passed over up to the semicolon. -/
theorem ofTokens_quiet {as : List Atom} (has : ∀ a ∈ as, isQuiet a.kind = true)
    (previous : TokenKind) :
    ofTokens previous (stream place k (Atom.words (as ++ [.sign .semicolon])) ++ rest) =
      ofTokens .semicolon rest := by
  induction as generalizing k previous with
  | nil => exact ofTokens_cons_quiet rfl previous (place k)
  | cons a as ih =>
    obtain ⟨ha, has⟩ := List.forall_mem_cons.mp has
    rw [List.cons_append, Atom.words_cons, stream_cons, List.cons_append, ofTokens_cons_quiet ha,
      ih has]

/-- The reference that a literal makes. -/
def ofSource (source : Source) : ReferenceKind × String := (.module, source.specifier)

theorem map_content_ofLiteral (source? : Option Source) (p : TokenPlace) :
    (((source?.map fun source => source.atom.toWord.token p).map ofLiteral).toList).map content =
      source?.toList.map ofSource := by
  cases source? with
  | none => rfl
  | some source => exact congrArg (fun value => [(ReferenceKind.module, value)]) source.value_atom

section

variable {previous : TokenKind} {as : List Atom} {source? : Option Source} {p : TokenPlace}

/-- A statement that begins with the word `import` makes the reference that is found behind it. -/
theorem ofTokens_import (hprevious : previous.isDot = false) (has : ∀ a ∈ as, isQuiet a.kind = true)
    (hsource : importedBy? (stream place (k + 1) (Atom.words (as ++ [.sign .semicolon])) ++ rest) =
      source?.map fun source => source.atom.toWord.token p) :
    (ofTokens previous (stream place k
        (Atom.words (Keyword.kwImport.atom :: as ++ [.sign .semicolon])) ++ rest)).map content =
      source?.toList.map ofSource ++ (ofTokens .semicolon rest).map content := by
  rw [List.cons_append, Atom.words_cons, stream_cons, List.cons_append, ofTokens,
    ofTokens_quiet has, hprevious, List.map_append, ← map_content_ofLiteral source? p, ← hsource]
  rfl

/-- A statement that begins with the word `export` makes the reference that is found behind it. -/
theorem ofTokens_export (hprevious : previous.isDot = false) (has : ∀ a ∈ as, isQuiet a.kind = true)
    (hsource : exportSource? (stream place (k + 1) (Atom.words (as ++ [.sign .semicolon])) ++
      rest) = source?.map fun source => source.atom.toWord.token p) :
    (ofTokens previous (stream place k
        (Atom.words (Keyword.kwExport.atom :: as ++ [.sign .semicolon])) ++ rest)).map content =
      source?.toList.map ofSource ++ (ofTokens .semicolon rest).map content := by
  rw [List.cons_append, Atom.words_cons, stream_cons, List.cons_append, ofTokens,
    ofTokens_quiet has, hprevious, List.map_append, ← map_content_ofLiteral source? p, ← hsource]
  rfl

end

theorem isQuiet_name (name : Name) : isQuiet name.atom.kind = true :=
  isQuiet_of_isClauseKind name.isClauseKind

theorem isQuiet_list (typeOnly : Bool) (list : NamedList) :
    ∀ a ∈ typeMark typeOnly ++ list.atoms, isQuiet a.kind = true :=
  List.forall_mem_append.mpr
    ⟨fun a ha => isQuiet_of_isClauseKind (isClauseKind_of_isListKind (isListKind_typeMark _ a ha)),
      fun a ha => isQuiet_of_isClauseKind (list.isClauseKind_atoms a ha)⟩

theorem isQuiet_fromClause (source : Source) : ∀ a ∈ fromClause source, isQuiet a.kind = true :=
  List.forall_mem_cons.mpr ⟨rfl, List.forall_mem_singleton.mpr rfl⟩

/-- **A statement makes the reference to its source,** and one that names no module makes none. -/
theorem ofTokens_statement (s : Statement) {previous : TokenKind}
    (hprevious : previous.isDot = false) :
    (ofTokens previous (stream place k (Atom.words s.atoms) ++ rest)).map content =
      s.source?.toList.map ofSource ++ (ofTokens .semicolon rest).map content := by
  cases s with
  | importFrom typeOnly clause source =>
    have hclause : ∀ a ∈ typeMark typeOnly ++ clause.atoms, isClauseKind a.kind = true :=
      List.forall_mem_append.mpr
        ⟨fun a ha => isClauseKind_of_isListKind (isListKind_typeMark _ a ha),
          clause.isClauseKind_atoms⟩
    obtain ⟨p, hsource⟩ := @importedBy?_clause place (k + 1) rest _ hclause
      (fun h => clause.atoms_ne_nil (List.append_eq_nil_iff.mp h).2) source [.sign .semicolon]
    rw [← List.append_assoc] at hsource
    exact @ofTokens_import _ _ _ _ _ (some source) p hprevious (List.forall_mem_append.mpr
      ⟨fun a ha => isQuiet_of_isClauseKind (hclause a ha), isQuiet_fromClause source⟩) hsource
  | importOnly source =>
    exact @ofTokens_import _ _ _ _ [source.atom] (some source) _ hprevious
      (List.forall_mem_singleton.mpr rfl) rfl
  | importRequire name source =>
    refine @ofTokens_import _ _ _ _ [name.atom, .sign .equals, Keyword.kwRequire.atom,
      .sign .lparen, source.atom, .sign .rparen] (some source) (place (k + 5)) hprevious ?_ ?_
    · simp only [List.forall_mem_cons]
      exact ⟨isQuiet_name name, rfl, rfl, rfl, rfl, rfl, fun _ h => by contradiction⟩
    · refine Eq.trans (importedBy?_of_isClauseKind ?_) ?_
      · exact name.isClauseKind
      exact @importSource?_append _ _ _ [name.atom]
        (List.forall_mem_singleton.mpr name.isClauseKind) (fun h => by contradiction)
  | importCall source =>
    refine @ofTokens_import _ _ _ _ [.sign .lparen, source.atom, .sign .rparen] (some source)
      (place (k + 2)) hprevious ?_ rfl
    simp only [List.forall_mem_cons]
    exact ⟨rfl, rfl, rfl, fun _ h => by contradiction⟩
  | exportAll alias? source =>
    cases alias? with
    | none =>
      exact @ofTokens_export _ _ _ _ (.sign .star :: fromClause source) (some source) _ hprevious
        (List.forall_mem_cons.mpr ⟨rfl, isQuiet_fromClause source⟩) rfl
    | some name =>
      exact @ofTokens_export _ _ _ _ (.sign .star :: (aliasAtoms (some name) ++ fromClause source))
        (some source) _ hprevious (List.forall_mem_cons.mpr ⟨rfl, List.forall_mem_append.mpr
          ⟨fun a ha => isQuiet_of_isClauseKind
            (isClauseKind_of_isListKind (isListKind_aliasAtoms _ a ha)),
            isQuiet_fromClause source⟩⟩) rfl
  | exportFrom typeOnly list source =>
    obtain ⟨j, hsource⟩ := @exportSource?_list place (k + 1) rest typeOnly list
      (fromClause source ++ [.sign .semicolon])
    rw [← List.append_assoc] at hsource
    exact @ofTokens_export _ _ _ _ _ (some source) _ hprevious (List.forall_mem_append.mpr
      ⟨isQuiet_list typeOnly list, isQuiet_fromClause source⟩) hsource
  | exportList typeOnly list =>
    obtain ⟨j, hsource⟩ := @exportSource?_list place (k + 1) rest typeOnly list [.sign .semicolon]
    exact @ofTokens_export _ _ _ _ _ none ⟨⟨0, 0⟩, false⟩ hprevious (isQuiet_list typeOnly list)
      hsource
  | exportConst name value =>
    refine @ofTokens_export _ _ _ _ [Keyword.kwConst.atom, name.atom, .sign .equals, .number value]
      none ⟨⟨0, 0⟩, false⟩ hprevious ?_ rfl
    simp only [List.forall_mem_cons]
    exact ⟨rfl, isQuiet_name name, rfl, rfl, fun _ h => by contradiction⟩
  | memberImport object argument =>
    have hcall : ∀ a ∈ [Atom.sign .lparen, .string argument, .sign .rparen],
        isQuiet a.kind = true := by
      simp only [List.forall_mem_cons]
      exact ⟨rfl, rfl, rfl, fun _ h => by contradiction⟩
    refine congrArg (List.map content) ?_
    -- behind the dot the word is the name of a member
    rw [Statement.atoms, Statement.body, List.cons_append, Atom.words_cons, stream_cons,
      List.cons_append, ofTokens_cons_quiet (isQuiet_name object), List.cons_append,
      Atom.words_cons, stream_cons, List.cons_append, ofTokens_cons_quiet rfl]
    exact ofTokens_quiet hcall _
  | importMeta =>
    refine @ofTokens_import _ _ _ _
      [.sign .dot, Keyword.metaName.atom, .sign .dot, Keyword.urlName.atom] none ⟨⟨0, 0⟩, false⟩
      hprevious ?_ rfl
    simp only [List.forall_mem_cons]
    exact ⟨rfl, rfl, rfl, rfl, fun _ h => by contradiction⟩
  | text literal =>
    exact congrArg (List.map content)
      (@ofTokens_quiet _ _ _ [.string literal] (List.forall_mem_singleton.mpr rfl) previous)

theorem ofTokens_statements (ss : List Statement) {previous : TokenKind}
    (hprevious : previous.isDot = false) (p : TokenPlace) :
    (ofTokens previous (stream place k (Atom.words (ss.flatMap Statement.atoms)) ++
        [endToken p])).map content =
      (ss.filterMap Statement.source?).map ofSource := by
  induction ss generalizing k previous with
  | nil =>
    change (ofTokens previous [endToken p]).map content = []
    rw [ofTokens]
    cases previous.isDot <;> rfl
  | cons s ss ih =>
    rw [List.flatMap_cons, Atom.words_append, stream_append, List.append_assoc,
      ofTokens_statement s hprevious, ih rfl, List.filterMap_cons]
    cases s.source? <;> rfl

/-! ## Directives -/

/-- The text of a line comment that is a directive: a third slash, and the opening of a tag. -/
def IsDirective (body : List Char) : Prop :=
  ∃ tag, body = '/' :: tag ∧ "<reference".toList <+: trimStart tag

theorem trimStart_append {cs : List Char} (h : trimStart cs ≠ []) (behind : List Char) :
    trimStart (cs ++ behind) = trimStart cs ++ behind := by
  unfold trimStart at *
  rw [List.dropWhile_append, if_neg (by simpa using h)]

/-- A comment that is no directive says nothing. -/
theorem ofComment_of_remarked {c : Comment} (h : Remarked (fun body => ¬ IsDirective body) c) :
    ofComment c = ⟨[], false⟩ := by
  have hnone : directiveBody? c = none := by
    unfold directiveBody?
    split
    · rename_i tag hkind htext
      obtain ⟨body, hbody, hremark⟩ := h hkind
      refine if_neg fun htag => hbody ?_
      rw [List.isPrefixOf_iff_prefix] at htag
      -- the comment has lost the carriage returns at its end
      have hstripped : (body.reverse.dropWhile (· == '\r')).reverse = '/' :: tag := by
        rw [hremark, Piece.remark, String.toList_ofList] at htext
        exact htext
      have hsplit := congrArg List.reverse
        (@List.takeWhile_append_dropWhile _ (· == '\r') body.reverse)
      rw [List.reverse_append, List.reverse_reverse, hstripped] at hsplit
      refine ⟨tag ++ _, hsplit.symm, ?_⟩
      rw [trimStart_append (fun hnil => by rw [hnil] at htag; simp at htag)]
      exact htag.trans (List.prefix_append ..)
    · rfl
  unfold ofComment
  rw [hnone]

/-- The leading comments of a rendering are those of its first gap. -/
theorem remarked_of_mem_leadingComments {remarks : List Char → Prop} {scan : Scan}
    (hleads : Rendered.LeadsWith remarks scan)
    (hfirst : ∀ t ∈ scan.tokens.head?, t.isFault = false) (hne : scan.tokens ≠ [])
    {c : Comment} (hc : c ∈ leadingComments scan) : Remarked remarks c := by
  obtain ⟨leading, further, hcomments, hleading, hfurther⟩ := hleads
  obtain ⟨first, rest, htokens⟩ := List.exists_cons_of_ne_nil hne
  have hfault : first.isFault = false := hfirst first (by rw [htokens]; rfl)
  have hfind : scan.tokens.find? (fun t => !t.isFault) = some first := by
    rw [htokens, List.find?_cons_of_pos (by simp [hfault])]
  unfold leadingComments at hc
  rw [hfind] at hc
  have hstart : c.span.start < first.span.start := by simpa using List.mem_takeWhile_imp hc
  rcases List.mem_append.mp (hcomments ▸ (List.takeWhile_sublist _).subset hc) with hc | hc
  · exact hleading c hc
  · exact absurd (hfurther c hc first (by rw [htokens]; rfl)) (Nat.not_le.mpr hstart)

end Reference

open Reference

/-- **The references of a list of statements are their sources,** in order, wherever white space and
comments stand; before the first statement there may be no directives. -/
theorem FileReferences.references_of_statements {ss : List Statement} {text : List Char}
    (h : Rendered (fun body => ¬ IsDirective body) text (ss.flatMap Statement.atoms)) :
    (ofText (String.ofList text)).references.map (fun r => (r.kind, r.specifier)) =
      (ss.filterMap Statement.source?).map fun source => (.module, source.specifier) := by
  obtain ⟨place, p, htokens, hleads⟩ := h.tokens_ofText
  have hfirst : ∀ t ∈ (Scan.ofText (String.ofList text)).tokens.head?, t.isFault = false := by
    rw [htokens]
    cases ss.flatMap Statement.atoms with
    | nil => exact fun t ht => Option.mem_some.mp ht ▸ rfl
    | cons a as => exact fun t ht => Option.mem_some.mp ht ▸ Atom.isFault_token a _
  have hcomments : ∀ c ∈ leadingComments (Scan.ofText (String.ofList text)),
      ofComment c = ⟨[], false⟩ := fun c hc =>
    ofComment_of_remarked (remarked_of_mem_leadingComments hleads hfirst (by simp [htokens]) hc)
  have hdirectives : ((leadingComments (Scan.ofText (String.ofList text))).map ofComment).flatMap
      FileReferences.references = [] := by
    rw [List.flatMap_eq_nil_iff]
    exact List.forall_mem_map.mpr fun c hc => by rw [hcomments c hc]
  simp only [ofText, ofScan, hdirectives, List.nil_append, htokens]
  exact ofTokens_statements ss rfl p

/-- An import whose names decide elsewhere, and statements that only look like references. -/
def smallModule : List Statement :=
  [.importFrom false
      (.both (.ofText "from".toList) (.named ⟨[⟨true, .ofText "as".toList, none⟩,
        ⟨false, .ofText "type".toList, some (.ofText "as".toList)⟩], false⟩))
      (.ofText "./a".toList),
    .exportList false ⟨[⟨false, .ofText "require".toList, none⟩], true⟩,
    .text (Source.ofText "import x from \"y\"".toList).literal,
    .memberImport (.ofText "type".toList) (Source.ofText "./b".toList).literal,
    .exportAll (some (.ofText "from".toList)) (.ofText "./c".toList),
    .importRequire (.ofText "from".toList) (.ofText "./d".toList)]

/-- These statements behind a comment. -/
def smallModuleText : List Char :=
  "// import x from 'y'\nimport from,{type as,type as as}from'./a';export{require,};".toList ++
    "'import x from \"y\"';type.import('./b');export*as from from'./c';".toList ++
    "import from=require('./d');".toList

theorem FileReferences.references_of_statements_smallModule :
    Rendered (fun body => ¬ IsDirective body) smallModuleText
      (smallModule.flatMap Statement.atoms) ∧
    (ofText (String.ofList smallModuleText)).references.map (fun r => (r.kind, r.specifier)) =
      [(.module, "./a"), (.module, "./c"), (.module, "./d")] := by
  have hgap : Gap (fun body => ¬ IsDirective body) "// import x from 'y'\n".toList := by
    refine @Gap.line _ " import x from 'y'".toList [] (by decide) ?_ .nil
    rintro ⟨tag, htag, -⟩
    cases htag
  have htext : "// import x from 'y'\n".toList ++ tight (smallModule.flatMap Statement.atoms) =
      smallModuleText := by decide +kernel
  have hrendered := htext ▸ (rendered_tight _ _).prepend hgap
  exact ⟨hrendered, references_of_statements hrendered⟩

end TypeScriptEngine
