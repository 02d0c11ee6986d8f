import Mathlib.Data.List.Chain
import TypeScriptEngine.Emit.Types
import TypeScriptEngine.Proofs.Token.Word

/-! # Divisions and regular expressions

A slash that begins no comment is read by the token before it alone (`Scan.slashes_layOut`): as the
beginning of a regular expression where an operand can begin, and as a division behind what can end
one.  What stands before that token is not looked at, so that a word is read as the reserved word
that it would be elsewhere when it is the name of a member, and an exclamation mark as a negation
when it asserts that a value is there (`slash_read_by_spelling`).  Behind these a slash is misread
(`slash_misread`).
-/

namespace TypeScriptEngine

open TypeScriptEngine.Text

/-! ## One slash -/

namespace Token

/-- The token begins with a slash that begins no comment. -/
def IsSlash (t : Token) : Prop :=
  t.source.toList.head? = some '/' ∧ t.kind ≠ .fault .unterminatedComment

/-- The token is the operator of a division, or of one with an assignment. -/
def IsDivision (t : Token) : Prop := t.kind = .operator ∧ (t.source = "/" ∨ t.source = "/=")

/-- The token is a regular expression, or the beginning of one that lacks its end. -/
def IsRegex (t : Token) : Prop := t.kind = .regexLiteral ∨ t.kind = .fault .unterminatedRegex

/-- A slash is read as a regular expression if one is allowed, and as a division otherwise. -/
def ReadsSlash (allowed : Bool) (t : Token) : Prop :=
  t.IsSlash → if allowed then t.IsRegex else t.IsDivision

/-- The token is spelled like a name. -/
def IsWord (t : Token) : Prop := ∃ c ∈ t.source.toList.head?, isNameStart c = true

instance (t : Token) : Decidable t.IsSlash := inferInstanceAs (Decidable (_ ∧ _))

theorem IsRegex.not_isDivision {t : Token} (h : t.IsRegex) : ¬ t.IsDivision := by
  rintro ⟨hkind, -⟩
  unfold IsRegex at h
  rw [hkind] at h
  revert h
  decide

end Token

namespace Lexeme

theorem token_slash (st : ScanState) (rest : List Char) : token st '/' rest =
    if st.regexAllowed then bounded .regexLiteral .unterminatedRegex (Extent.regex rest)
    else punctuation '/' rest := by
  cases hregex : st.regexAllowed <;> simp [token, hregex, show isNameStart '/' = false by decide]

/-- The only longer operator that begins with a slash is that of a division with an assignment. -/
theorem punctuation_slash (rest : List Char) :
    ∃ n, punctuation '/' rest = ⟨.token .operator, n⟩ ∧
      ('/' :: rest.take n = ['/'] ∨ '/' :: rest.take n = ['/', '=']) := by
  by_cases hrest : rest.head? = some '='
  · obtain ⟨cs, rfl⟩ := List.head?_eq_some_iff.mp hrest
    exact ⟨1, rfl, .inr rfl⟩
  · refine ⟨0, punctuation_of_single (.inl (by decide)) fun op hop hslash hnext => ?_, .inl rfl⟩
    have hlong : ∀ op ∈ longOperators, op.1.head? = some '/' → op.1[1]? = some '=' := by decide
    exact hrest (hnext.symm.trans (hlong op hop hslash))

/-- A slash begins a comment, or a token by the rules of tokens. -/
theorem next_slash_cases (st : ScanState) (rest : List Char) :
    (∃ kind, (next st '/' rest).kind = .comment kind) ∨
      (next st '/' rest).kind = .token (.fault .unterminatedComment) ∨
      next st '/' rest = token st '/' rest := by
  unfold next
  rw [if_neg (by decide), if_pos (beq_self_eq_true _)]
  split
  · exact .inl ⟨_, rfl⟩
  · simp only
    split
    · exact .inl ⟨_, rfl⟩
    · exact .inr (.inl rfl)
  · exact .inr (.inr rfl)

/-- **The state tells how a slash is read.** -/
theorem readsSlash_next {st : ScanState} {c : Char} {rest : List Char} {t : Token}
    (hkind : (next st c rest).kind = .token t.kind)
    (hsource : t.source.toList = c :: rest.take (next st c rest).further) :
    t.ReadsSlash st.regexAllowed := by
  rintro ⟨hhead, hcomment⟩
  obtain rfl : c = '/' := by
    rw [hsource] at hhead
    exact Option.some.inj hhead
  rcases next_slash_cases st rest with ⟨comment, hnext⟩ | hnext | hnext
  · cases hkind.symm.trans hnext
  · exact absurd (PieceKind.token.inj (hkind.symm.trans hnext)) hcomment
  rw [hnext, token_slash] at hkind hsource
  split at hkind
  · rename_i hregex
    rw [if_pos hregex]
    have hbounded := PieceKind.token.inj hkind
    split at hbounded
    · exact .inl hbounded.symm
    · exact .inr hbounded.symm
  · rename_i hregex
    rw [if_neg hregex] at hsource ⊢
    obtain ⟨n, hoperator, htext⟩ := punctuation_slash rest
    rw [hoperator] at hkind hsource
    refine ⟨(PieceKind.token.inj hkind).symm, ?_⟩
    rw [← hsource] at htext
    exact htext.imp String.toList_inj.mp String.toList_inj.mp

/-- A name is a word, whatever is open. -/
theorem next_of_isNameStart {c : Char} (hc : isNameStart c = true) (st : ScanState)
    (rest : List Char) : next st c rest = word c rest := by
  have hne : ∀ d, isNameStart d = false → (c == d) = false := by
    intro d hd
    refine beq_eq_false_iff_ne.mpr ?_
    rintro rfl
    exact Bool.false_ne_true (hd ▸ hc)
  have hslash := hne '/' (by decide)
  rw [next_eq_token (isBlank_of_isNameStart hc) (beq_eq_false_iff_ne.mp hslash)]
  unfold token
  simp [hne '"' (by decide), hne '\'' (by decide), hne '\x60' (by decide), hne '}' (by decide),
    hne '.' (by decide), hslash, isDigit_of_isNameStart hc, hc]

/-- **A word is of the kind that goes with its spelling,** wherever it stands. -/
theorem kind_of_isWord {st : ScanState} {c : Char} {rest : List Char} {t : Token}
    (hkind : (next st c rest).kind = .token t.kind)
    (hsource : t.source.toList = c :: rest.take (next st c rest).further) (hword : t.IsWord) :
    t.kind = .ofWord t.source := by
  obtain ⟨d, hd, hstart⟩ := hword
  rw [hsource] at hd
  obtain rfl := Option.some.inj hd
  rw [next_of_isNameStart hstart] at hkind hsource
  rw [take_word] at hsource
  have hspelling : t.source = String.ofList (c :: rest.takeWhile isNamePart) := by
    rw [← hsource, String.ofList_toList]
  rw [hspelling]
  exact (PieceKind.token.inj hkind).symm

end Lexeme

/-! ## The tokens of a text -/

namespace Scan

open ScanState (regexAllowedAfter)

theorem kind_of_isWord {text : String} :
    ∀ t ∈ (ofText text).tokens, t.IsWord → t.kind = .ofWord t.source := by
  refine tokens_induction (P := fun _ ts => ∀ t ∈ ts, t.IsWord → t.kind = .ofWord t.source)
    (fun _ t _ hsource => List.forall_mem_singleton.mpr ?_)
    (fun _ _ _ _ _ hkind hsource ih => List.forall_mem_cons.mpr
      ⟨Lexeme.kind_of_isWord hkind hsource, ih⟩) .initial text.toList 0 true
  rintro ⟨c, hc, -⟩
  rw [hsource] at hc
  exact absurd hc (by simp)

/-- **Each slash is read by the token before it,** and one at the beginning by the state. -/
theorem slashes_layOut (st : ScanState) (cs : List Char) (pos : Nat) (lineBefore : Bool) :
    (∀ u ∈ (layOut pos lineBefore (pieces st cs)).tokens.head?, u.ReadsSlash st.regexAllowed) ∧
      (layOut pos lineBefore (pieces st cs)).tokens.IsChain fun t u =>
        u.ReadsSlash (regexAllowedAfter t.kind t.source.toList) := by
  refine tokens_induction (P := fun st ts => (∀ u ∈ ts.head?, u.ReadsSlash st.regexAllowed) ∧
    ts.IsChain fun t u => u.ReadsSlash (regexAllowedAfter t.kind t.source.toList))
    (fun _ t _ hsource => ⟨?_, .singleton t⟩)
    (fun _ _ _ t _ hkind hsource ih => ⟨?_, List.isChain_cons.mpr ih⟩) st cs pos lineBefore
  · rintro _ ⟨⟩ ⟨hslash, -⟩
    rw [hsource] at hslash
    exact absurd hslash (by simp)
  · rintro _ ⟨⟩
    exact Lexeme.readsSlash_next hkind hsource

end Scan

/-! ## Words and exclamation marks -/

/-- The reserved words that have a kind of their own. -/
def reservedWords : List String :=
  ["import", "export", "const", "let", "var", "function", "class", "enum", "default", "extends",
    "return", "typeof", "new"]

/-- The words behind which an operand begins, unless they are the names of members. -/
def operandWords : List String :=
  ["case", "do", "else", "in", "instanceof", "delete", "void", "throw", "yield", "await", "of"] ++
    reservedWords

theorem regexAllowedAfter_ofWord (word : String) :
    ScanState.regexAllowedAfter (.ofWord word) word.toList = decide (word ∈ operandWords) := by
  have hown : ∀ w ∈ TokenKind.ownWords,
      ScanState.regexAllowedAfter w.2 w.1.toList = decide (w.1 ∈ operandWords) := by decide
  have hreserved : ∀ w ∈ reservedWords, TokenKind.ofWord w ≠ .identifier := by decide
  rcases TokenKind.ofWord_cases word with h | h
  · have hword : word ∉ reservedWords := fun hmem => hreserved word hmem h
    rw [h, ScanState.regexAllowedAfter, ScanState.isExpressionWord, String.ofList_toList,
      List.contains_eq_mem, operandWords]
    simp only [List.mem_append, hword, or_false]
  · exact hown _ h

namespace TokenStream

/-- The token at `i` is the last one of an operand: an exclamation mark that asserts that a value is
there, or the name of a member. -/
def EndsOperand (ts : TokenStream) (i : Nat) : Prop :=
  ts.kind i = .bang ∧ Emit.isNonNullAssertion ts i = true ∨
    ts.followsDot i = true ∧ ∃ t ∈ ts[i]?, t.IsWord

end TokenStream

section

variable {text : String} {i : Nat} {t u : Token}

theorem readsSlash_ofText (ht : (Scan.ofText text).tokens[i]? = some t)
    (hu : (Scan.ofText text).tokens[i + 1]? = some u) :
    u.ReadsSlash (ScanState.regexAllowedAfter t.kind t.source.toList) := by
  obtain ⟨hi, rfl⟩ := List.getElem?_eq_some_iff.mp hu
  obtain ⟨_, rfl⟩ := List.getElem?_eq_some_iff.mp ht
  exact (Scan.slashes_layOut .initial text.toList 0 true).2.getElem i hi

/-- **How a slash is read behind a word or an exclamation mark** is told by its spelling, whatever
stands before it: it does not matter whether the mark asserts that a value is there, and whether the
word is the name of a member. -/
theorem slash_read_by_spelling (ht : (Scan.ofText text).tokens[i]? = some t)
    (hu : (Scan.ofText text).tokens[i + 1]? = some u) (hslash : u.IsSlash)
    (h : t.kind = .bang ∨ t.IsWord) :
    (u.IsDivision ↔ t.kind ≠ .bang ∧ t.source ∉ operandWords) ∧
      (u.IsRegex ↔ t.kind = .bang ∨ t.source ∈ operandWords) := by
  have hreads := readsSlash_ofText ht hu hslash
  rcases h with hbang | hword
  · have hregex : u.IsRegex := by rwa [hbang] at hreads
    simp [hbang, hregex, hregex.not_isDivision]
  · have hkind := Scan.kind_of_isWord t (List.mem_of_getElem? ht) hword
    have hne : t.kind ≠ .bang := hkind ▸ TokenKind.ofWord_all (P := (· ≠ .bang)) (by decide)
      (by decide) t.source
    rw [hkind, regexAllowedAfter_ofWord] at hreads
    by_cases hmem : t.source ∈ operandWords
    · have hregex : u.IsRegex := by simpa [hmem] using hreads
      simp [hmem, hregex, hregex.not_isDivision]
    · have hdivision : u.IsDivision := by simpa [hmem] using hreads
      have hregex : ¬ u.IsRegex := fun hregex => hregex.not_isDivision hdivision
      simp [hmem, hne, hdivision, hregex]

end

/-- Behind `a.b` there is a division, and behind `a.of` and `a!` there is none. -/
theorem slash_read_by_spelling_members :
    (∃ u ∈ (Scan.ofText "a.b / c").tokens[3]?, u.IsDivision) ∧
      (∃ u ∈ (Scan.ofText "a.of / b").tokens[3]?, u.IsRegex) ∧
        ∃ u ∈ (Scan.ofText "a! / b").tokens[2]?, u.IsRegex := by
  have hmember : (Scan.ofText "a.b / c").tokens[2]? =
      some ⟨.identifier, ⟨2, 3⟩, "b", "b", false⟩ := by decide +kernel
  have hdivision : (Scan.ofText "a.b / c").tokens[3]? =
      some ⟨.operator, ⟨4, 5⟩, "/", "/", false⟩ := by decide +kernel
  have hof : (Scan.ofText "a.of / b").tokens[2]? =
      some ⟨.identifier, ⟨2, 4⟩, "of", "of", false⟩ := by decide +kernel
  have hbehindOf : (Scan.ofText "a.of / b").tokens[3]? = some ⟨.fault .unterminatedRegex, ⟨5, 8⟩,
      LexicalFault.message .unterminatedRegex, "/ b", false⟩ := by decide +kernel
  have hbang : (Scan.ofText "a! / b").tokens[1]? =
      some ⟨.bang, ⟨1, 2⟩, "!", "!", false⟩ := by decide +kernel
  have hbehindBang : (Scan.ofText "a! / b").tokens[2]? = some ⟨.fault .unterminatedRegex, ⟨3, 6⟩,
      LexicalFault.message .unterminatedRegex, "/ b", false⟩ := by decide +kernel
  refine ⟨⟨_, hdivision, ?_⟩, ⟨_, hbehindOf, ?_⟩, ⟨_, hbehindBang, ?_⟩⟩
  · exact (slash_read_by_spelling hmember hdivision (by decide)
      (.inr ⟨'b', rfl, by decide⟩)).1.mpr (by decide)
  · exact (slash_read_by_spelling hof hbehindOf (by decide)
      (.inr ⟨'o', rfl, by decide⟩)).2.mpr (by decide)
  · exact (slash_read_by_spelling hbang hbehindBang (by decide) (.inl rfl)).2.mpr (by decide)

/-- **A slash behind the end of an operand is misread** if the operand ends in an assertion, or in a
member that has the name of a reserved word. -/
theorem slash_misread :
    (TokenStream.EndsOperand (Scan.ofText "a! / b").tokens 1 ∧
        TokenStream.kind (Scan.ofText "a! / b").tokens 2 = .fault .unterminatedRegex) ∧
      TokenStream.EndsOperand (Scan.ofText "a.default / b").tokens 2 ∧
        TokenStream.kind (Scan.ofText "a.default / b").tokens 3 = .fault .unterminatedRegex := by
  have hdefault : (Scan.ofText "a.default / b").tokens[2]? =
      some ⟨.kwDefault, ⟨2, 9⟩, "default", "default", false⟩ := by decide +kernel
  exact ⟨⟨.inl (by decide +kernel), by decide +kernel⟩,
    .inr ⟨by decide +kernel, _, hdefault, 'd', rfl, by decide⟩, by decide +kernel⟩

end TypeScriptEngine
