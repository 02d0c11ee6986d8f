import TypeScriptEngine.Check.Brackets
import TypeScriptEngine.Proofs.Token.BracketStack
import TypeScriptEngine.Proofs.Token.Tiling

/-! # The first bracket that does not fit

The checker keeps a stack of the open brackets until it gets stuck.  So it has one finding about
brackets where they are not balanced, and that is about the first bracket that does not fit, or about
the end of the text (`syntactic_spec`).  The other findings are one for each piece of text that is no
token, whatever the brackets are.
-/

namespace TypeScriptEngine

open TokenStream

/-! ## The findings -/

/-- What a token is reported for that is no token. -/
def Token.lexicalFinding? (t : Token) : Option Finding :=
  match t.kind with
  | .fault cause => some ⟨.lexical cause, t.span⟩
  | _ => none

/-- A finding is about brackets, by its number. -/
def Finding.isBracket (f : Finding) : Bool := f.cause.code = 1005 ∨ f.cause.code = 1128

theorem Finding.isBracket_lexical (cause : LexicalFault) (s : Span) :
    Finding.isBracket ⟨.lexical cause, s⟩ = false := by
  cases cause <;> rfl

namespace Check

variable {ts body front behind : TokenStream} {opened left : List TokenKind} {t last : Token}

theorem lexicalFinding?_fault {cause : LexicalFault} (h : t.kind = .fault cause) :
    t.lexicalFinding? = some ⟨.lexical cause, t.span⟩ := by
  rw [Token.lexicalFinding?, h]

theorem lexicalFinding?_of_ne (h : ∀ cause, t.kind ≠ .fault cause) : t.lexicalFinding? = none := by
  unfold Token.lexicalFinding?
  split
  · exact absurd ‹_› (h _)
  · rfl

theorem lexicalFinding?_opener (h : t.kind.isOpener = true) : t.lexicalFinding? = none :=
  lexicalFinding?_of_ne fun _ hkind => absurd (hkind ▸ h) nofun

theorem lexicalFinding?_closer (h : t.kind.isCloser = true) : t.lexicalFinding? = none :=
  lexicalFinding?_of_ne fun _ hkind => absurd (hkind ▸ h) nofun

theorem lexicalFinding?_eof (h : t.kind = .eof) : t.lexicalFinding? = none :=
  lexicalFinding?_of_ne fun _ hkind => absurd (h.symm.trans hkind) nofun

/-- What is wrong with a closing bracket that does not fit the open ones. -/
def misfit : List TokenKind → FindingCause
  | [] => .unopenedCloser
  | opener :: _ => .closerExpected opener

theorem isBracket_misfit (opened : List TokenKind) (s : Span) :
    Finding.isBracket ⟨misfit opened, s⟩ = true := by
  cases opened <;> rfl

theorem bracketFindings_opener (h : t.kind.isOpener = true) (opened : List TokenKind)
    (failed : Bool) (rest : TokenStream) : bracketFindings opened failed (t :: rest) =
      bracketFindings (t.kind :: opened) failed rest := by
  conv_lhs => unfold bracketFindings
  exact if_pos h

/-- A token that is no bracket, nor the end of the text, is reported if it is a fault. -/
theorem bracketFindings_plain (hopen : t.kind.isOpener = false)
    {failed : Bool} (hclose : (t.kind.isCloser && !failed) = false)
    (heof : failed = true ∨ t.kind ≠ .eof) (opened : List TokenKind) (rest : TokenStream) :
    bracketFindings opened failed (t :: rest) =
      t.lexicalFinding?.toList ++ bracketFindings opened failed rest := by
  conv_lhs => unfold bracketFindings
  rw [if_neg (Bool.eq_false_iff.mp hopen), if_neg (Bool.eq_false_iff.mp hclose)]
  split
  · rw [lexicalFinding?_fault ‹_›]
    rfl
  · rename_i hkind
    rw [if_pos (heof.resolve_right (absurd hkind)), lexicalFinding?_eof hkind]
    rfl
  · rename_i hfault _
    rw [lexicalFinding?_of_ne hfault]
    rfl

/-- After a bracket that does not fit, only the pieces of text that are no token are reported. -/
theorem bracketFindings_failed (opened : List TokenKind) (ts : TokenStream) :
    bracketFindings opened true ts = ts.filterMap Token.lexicalFinding? := by
  induction ts generalizing opened with
  | nil => rfl
  | cons t ts ih =>
    cases hopen : t.kind.isOpener with
    | true => rw [bracketFindings_opener hopen, ih,
        List.filterMap_cons_none (lexicalFinding?_opener hopen)]
    | false =>
      rw [bracketFindings_plain hopen (Bool.and_false _) (.inl rfl), ih, List.filterMap_cons]
      cases t.lexicalFinding? <;> rfl

/-- What a token adds that can stand behind the open brackets. -/
theorem bracketFindings_step (h : readBracket? opened t = some left) (heof : t.kind ≠ .eof)
    (rest : TokenStream) : bracketFindings opened false (t :: rest) =
      t.lexicalFinding?.toList ++ bracketFindings left false rest := by
  obtain ⟨hopen, rfl⟩ | ⟨opener, rfl, hpair⟩ | ⟨hopen, hclose, rfl⟩ := readBracket?_cases h
  · rw [bracketFindings_opener hopen, lexicalFinding?_opener hopen]
    rfl
  · have hclose := TokenKind.isCloser_of_closer? hpair
    have hopen : t.kind.isOpener ≠ true := fun hopen =>
      TokenKind.ne_of_isOpener_of_isCloser hopen hclose rfl
    conv_lhs => unfold bracketFindings
    rw [if_neg hopen, hclose, lexicalFinding?_closer hclose]
    exact if_pos hpair
  · exact bracketFindings_plain hopen (by rw [hclose, Bool.false_and]) (.inr heof) ..

/-- What can be read with the stack leads to no finding about brackets. -/
theorem bracketFindings_run (h : front.foldlM readBracket? opened = some left)
    (heof : ∀ t ∈ front, t.kind ≠ .eof) (rest : TokenStream) :
    bracketFindings opened false (front ++ rest) =
      front.filterMap Token.lexicalFinding? ++ bracketFindings left false rest := by
  induction front generalizing opened with
  | nil =>
    obtain rfl := Option.some.inj h
    rfl
  | cons t front ih =>
    obtain ⟨mid, ht, h⟩ := Option.bind_eq_some_iff.mp h
    rw [List.cons_append, bracketFindings_step ht (heof t (List.mem_cons_self ..)),
      ih h fun t' ht' => heof t' (List.mem_cons_of_mem _ ht'), List.filterMap_cons]
    cases t.lexicalFinding? <;> rfl

/-- Where the stack gets stuck there is a finding about brackets, and none behind it. -/
theorem bracketFindings_stuck (h : readBracket? opened t = none) (rest : TokenStream) :
    bracketFindings opened false (t :: rest) =
      ⟨misfit opened, t.span⟩ :: rest.filterMap Token.lexicalFinding? := by
  obtain ⟨hopen, hclose⟩ := isCloser_of_readBracket? h
  conv_lhs => unfold bracketFindings
  rw [hopen, hclose]
  cases opened with
  | nil => exact congrArg (List.cons _) (bracketFindings_failed [] rest)
  | cons opener opened =>
    refine Eq.trans (if_neg (closer?_ne_of_readBracket? h)) ?_
    exact congrArg (List.cons _) (bracketFindings_failed opened rest)

/-- At the end of the text the innermost bracket that is open is reported. -/
theorem bracketFindings_eof (heof : last.kind = .eof) (opened : List TokenKind) :
    bracketFindings opened false [last] =
      (opened.head?.map fun o => ⟨.closerExpected o, last.span⟩).toList := by
  conv_lhs => unfold bracketFindings
  rw [heof]
  exact List.append_nil _

/-- **The findings of a text whose brackets can be balanced** are one for each piece of text that is
no token, and one if a bracket is still open at the end. -/
theorem syntactic_of_run (h : body.foldlM readBracket? [] = some left)
    (hbody : ∀ t ∈ body, t.kind ≠ .eof) (heof : last.kind = .eof) :
    syntactic (body ++ [last]) = body.filterMap Token.lexicalFinding? ++
      (left.head?.map fun o => ⟨.closerExpected o, last.span⟩).toList := by
  rw [syntactic, bracketFindings_run h hbody, bracketFindings_eof heof]

/-- **The findings of a text with a bracket that does not fit** are one for each piece of text that
is no token, and one for that bracket. -/
theorem syntactic_of_stuck (h : front.foldlM readBracket? [] = some opened)
    (ht : readBracket? opened t = none) (hfront : ∀ t ∈ front, t.kind ≠ .eof) :
    syntactic (front ++ t :: behind) = front.filterMap Token.lexicalFinding? ++
      ⟨misfit opened, t.span⟩ :: behind.filterMap Token.lexicalFinding? := by
  rw [syntactic, bracketFindings_run h hfront, bracketFindings_stuck ht]

theorem not_isBracket_of_mem_lexical {f : Finding}
    (h : f ∈ ts.filterMap Token.lexicalFinding?) : f.isBracket = false := by
  obtain ⟨t, _, ht⟩ := List.mem_filterMap.mp h
  unfold Token.lexicalFinding? at ht
  split at ht
  · obtain rfl := Option.some.inj ht
    exact Finding.isBracket_lexical _ _
  · contradiction

theorem filter_isBracket_lexical (ts : TokenStream) :
    (ts.filterMap Token.lexicalFinding?).filter Finding.isBracket = [] :=
  List.filter_eq_nil_iff.mpr fun _ hf => Bool.eq_false_iff.mp (not_isBracket_of_mem_lexical hf)

theorem filter_lexical (ts : TokenStream) :
    (ts.filterMap Token.lexicalFinding?).filter (fun f => !f.isBracket) =
      ts.filterMap Token.lexicalFinding? :=
  List.filter_eq_self.mpr fun _ hf => by rw [not_isBracket_of_mem_lexical hf]; rfl

/-- The finding `f` is about the first bracket that does not fit.  That is the first closing bracket
behind which nothing can follow that balances the brackets: no bracket is open there, or the
innermost one is of another kind.  If there is none, it is the end of the text, where a bracket is
still open. -/
def IsMisfit (ts : TokenStream) (f : Finding) : Prop :=
  (∃ front t behind, ts = front ++ t :: behind ∧ t.kind.isCloser = true ∧ f.span = t.span ∧
    Extendable front ∧ ¬Extendable (front ++ [t]) ∧
    (f.cause = .unopenedCloser ∧ Bracketed front ∨
      ∃ o, f.cause = .closerExpected o ∧ InnermostOpen front o ∧ o.closer? ≠ some t.kind)) ∨
  ∃ body last o, ts = body ++ [last] ∧ last.kind = .eof ∧ f.span = last.span ∧
    (∀ front, front <+: ts → Extendable front) ∧ f.cause = .closerExpected o ∧
    InnermostOpen body o

theorem isMisfit_of_stuck (h : front.foldlM readBracket? [] = some opened)
    (ht : readBracket? opened t = none) (behind : TokenStream) :
    IsMisfit (front ++ t :: behind) ⟨misfit opened, t.span⟩ := by
  refine .inl ⟨front, t, behind, rfl, (isCloser_of_readBracket? ht).2, rfl,
    extendable_iff.mpr ⟨opened, h⟩, not_extendable_of_stuck h ht, ?_⟩
  cases opened with
  | nil => exact .inl ⟨rfl, run_nil_iff.mp h⟩
  | cons o outer => exact .inr ⟨o, rfl, innermostOpen_of_run h, closer?_ne_of_readBracket? ht⟩

theorem isMisfit_of_open {o : TokenKind} (h : body.foldlM readBracket? [] = some (o :: opened))
    (heof : last.kind = .eof) : IsMisfit (body ++ [last]) ⟨.closerExpected o, last.span⟩ := by
  refine .inr ⟨body, last, o, rfl, heof, rfl, ?_, rfl, innermostOpen_of_run h⟩
  have hts : Extendable (body ++ [last]) :=
    ((opens_of_run h).append (.plain (heof ▸ rfl) (heof ▸ rfl) .nil)).extendable
  rintro front ⟨behind, hbehind⟩
  obtain ⟨more, hmore⟩ := hts
  exact ⟨behind ++ more, by rwa [← List.append_assoc, hbehind]⟩

/-- The findings of a text whose brackets can be balanced, told apart. -/
theorem filter_syntactic_of_run (h : body.foldlM readBracket? [] = some left)
    (hbody : ∀ t ∈ body, t.kind ≠ .eof) (heof : last.kind = .eof) :
    (syntactic (body ++ [last])).filter (fun f => !f.isBracket) =
        (body ++ [last]).filterMap Token.lexicalFinding? ∧
      (syntactic (body ++ [last])).filter Finding.isBracket =
        (left.head?.map fun o => ⟨.closerExpected o, last.span⟩).toList := by
  have hlexical : (body ++ [last]).filterMap Token.lexicalFinding? =
      body.filterMap Token.lexicalFinding? := by
    rw [List.filterMap_append, List.filterMap_cons_none (lexicalFinding?_eof heof),
      List.filterMap_nil, List.append_nil]
  rw [syntactic_of_run h hbody heof, hlexical, List.filter_append, List.filter_append,
    filter_lexical, filter_isBracket_lexical]
  cases left with
  | nil => exact ⟨List.append_nil _, rfl⟩
  | cons o outer => exact ⟨List.append_nil _, rfl⟩

theorem bracketed_iff_of_run (h : body.foldlM readBracket? [] = some left)
    (heof : last.kind = .eof) : Bracketed (body ++ [last]) ↔ left = [] := by
  rw [← run_nil_iff, List.foldlM_append, h]
  show [last].foldlM readBracket? left = _ ↔ _
  rw [List.foldlM_cons, readBracket?_plain (heof ▸ rfl) (heof ▸ rfl)]
  exact Option.some_inj

/-- The findings of a text with a bracket that does not fit, told apart. -/
theorem filter_syntactic_of_stuck (h : front.foldlM readBracket? [] = some opened)
    (ht : readBracket? opened t = none) (hfront : ∀ t ∈ front, t.kind ≠ .eof) :
    (syntactic (front ++ t :: behind)).filter (fun f => !f.isBracket) =
        (front ++ t :: behind).filterMap Token.lexicalFinding? ∧
      (syntactic (front ++ t :: behind)).filter Finding.isBracket = [⟨misfit opened, t.span⟩] := by
  have hlexical : (front ++ t :: behind).filterMap Token.lexicalFinding? =
      front.filterMap Token.lexicalFinding? ++ behind.filterMap Token.lexicalFinding? := by
    rw [List.filterMap_append,
      List.filterMap_cons_none (lexicalFinding?_closer (isCloser_of_readBracket? ht).2)]
  rw [syntactic_of_stuck h ht hfront, hlexical, List.filter_append, List.filter_append,
    filter_lexical, filter_isBracket_lexical, List.filter_cons_of_neg (by simp [isBracket_misfit]),
    filter_lexical, List.filter_cons_of_pos (isBracket_misfit ..), filter_isBracket_lexical]
  exact ⟨rfl, rfl⟩

theorem not_bracketed_of_stuck (h : front.foldlM readBracket? [] = some opened)
    (ht : readBracket? opened t = none) : ¬Bracketed (front ++ t :: behind) := fun hts =>
  not_extendable_of_stuck h ht ⟨behind, by rwa [List.append_assoc, List.singleton_append]⟩

/-- **The findings that a text has whatever it means.**  For every text they are one for each piece of
text that is no token, and, just if its brackets are not balanced, a single further one, about the
first bracket that does not fit, or about the end of the text if every beginning of it can be
continued so that its brackets are balanced. -/
theorem syntactic_spec (text : String) :
    let ts := (Scan.ofText text).tokens
    let found := syntactic ts
    found.filter (fun f => !f.isBracket) = ts.filterMap Token.lexicalFinding? ∧
      (Bracketed ts → found.filter Finding.isBracket = []) ∧
      (¬Bracketed ts → ∃ f, found.filter Finding.isBracket = [f] ∧ IsMisfit ts f) := by
  intro ts found
  obtain ⟨body, last, hts, hbody, heof, _⟩ : ∃ body last, ts = body ++ [last] ∧
      (∀ t ∈ body, t.kind ≠ .eof) ∧ last.kind = .eof ∧ _ := Scan.exists_tokens_eq 0 true
    fun p (hp : p ∈ pieces .initial text.toList) => kind_ne_eof_of_mem_pieces hp
  have hfound : found = syntactic (body ++ [last]) := congrArg syntactic hts
  rw [hfound, hts]
  cases hrun : body.foldlM readBracket? [] with
  | some left =>
    obtain ⟨hlexical, hbracket⟩ := filter_syntactic_of_run hrun hbody heof
    rw [hbracket, bracketed_iff_of_run hrun heof]
    refine ⟨hlexical, ?_⟩
    cases left with
    | nil => exact ⟨fun _ => rfl, fun hne => absurd rfl hne⟩
    | cons o outer => exact ⟨nofun, fun _ => ⟨_, rfl, isMisfit_of_open hrun heof⟩⟩
  | none =>
    obtain ⟨front, t, rest, opened, rfl, hfront, hstuck⟩ := exists_stuck hrun
    rw [List.append_assoc, List.cons_append]
    obtain ⟨hlexical, hbracket⟩ := @filter_syntactic_of_stuck front (rest ++ [last]) opened t hfront
      hstuck fun t ht => hbody t (List.mem_append_left _ ht)
    exact ⟨hlexical, fun h => absurd h (not_bracketed_of_stuck hfront hstuck),
      fun _ => ⟨_, hbracket, isMisfit_of_stuck hfront hstuck _⟩⟩

/-- A parenthesis cannot close a square bracket, and what comes behind it is not looked at. -/
example : syntactic (Scan.ofText "([)\\]]").tokens =
    [⟨.closerExpected .lbracket, ⟨2, 3⟩⟩, ⟨.lexical .invalidCharacter, ⟨3, 4⟩⟩] := by
  decide +kernel

end Check

end TypeScriptEngine
