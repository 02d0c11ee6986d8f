import TypeScriptEngine.Proofs.Token.BracketStack
import TypeScriptEngine.Proofs.Token.Tiling

/-! # Closing angle brackets

Type argument lists close one level at a time if every closing angle bracket is a token of its own.
Outside comments, literals and arrows it is, with one exception: the three of an unsigned shift
assignment are one token with the equals sign (`Scan.exists_closesAt`).  Taking that token apart
(`TokenStream.oneByOne`) gives the tokens in which lists nest as they are written, at any depth.  In
these the search for the closer of a list finds it, or it stops before it at a token that ends type
arguments, which is the unsigned shift assignment or a token of the list
(`TokenStream.matchingAngle?_of_angleNested`).
-/

namespace TypeScriptEngine

open TypeScriptEngine.Text TokenStream

/-! ## Tokens that hold a closing angle bracket -/

/-- Tokens that can hold any character: literals with a beginning and an end, and what lacks its
end. -/
def TokenKind.isVerbatim : TokenKind → Bool
  | .stringLiteral | .regexLiteral | .templateLiteral | .templateHead | .templateMiddle
  | .templateTail => true
  | .fault cause => cause != .invalidCharacter
  | _ => false

/-- The tokens that hold a closing angle bracket, by their kinds and texts. -/
inductive HoldsAngle : TokenKind → List Char → Prop where
  | verbatim {kind : TokenKind} {text : List Char} (h : kind.isVerbatim = true) :
      HoldsAngle kind text
  | own : HoldsAngle .gt ['>']
  | arrow : HoldsAngle .arrow ['=', '>']
  | shift : HoldsAngle .operator ['>', '>', '>', '=']

namespace Extent

theorem not_mem_take_run {p : Char → Bool} (hp : p '>' = false) (cs : List Char) :
    '>' ∉ cs.take (run p cs) := by
  rw [run, ← List.prefix_iff_eq_take.mp (List.takeWhile_prefix _)]
  exact fun h => Bool.false_ne_true (hp ▸ List.mem_takeWhile_imp h)

theorem not_mem_take_fraction (cs : List Char) : '>' ∉ cs.take (fraction cs) := by
  unfold fraction
  split
  · rw [Nat.add_comm, List.take_succ_cons]
    exact List.not_mem_cons_of_ne_of_not_mem (by decide) (not_mem_take_run (by decide) _)
  · exact List.not_mem_nil

theorem not_mem_take_exponent (cs : List Char) : '>' ∉ cs.take (exponent cs) := by
  unfold exponent
  split
  · rename_i c rest
    split
    · rename_i hmark
      have hc : '>' ≠ c := by
        rintro rfl
        exact absurd hmark (by decide)
      simp only
      rw [Nat.add_assoc, Nat.add_comm, List.take_succ_cons]
      refine List.not_mem_cons_of_ne_of_not_mem hc ?_
      rw [List.take_add, List.mem_append, not_or]
      refine ⟨?_, not_mem_take_run (by decide) _⟩
      split <;> simp
    · exact List.not_mem_nil
  · exact List.not_mem_nil

theorem not_mem_take_bigSuffix (cs : List Char) : '>' ∉ cs.take (bigSuffix cs) := by
  unfold bigSuffix
  split <;> simp

theorem not_mem_take_decimal (cs : List Char) : '>' ∉ cs.take (decimal cs) := by
  unfold decimal
  simp only [List.take_add, List.mem_append, not_or]
  exact ⟨⟨⟨not_mem_take_run (by decide) _, not_mem_take_fraction _⟩, by
    simpa using not_mem_take_exponent _⟩, by simpa using not_mem_take_bigSuffix _⟩

/-- No number holds a closing angle bracket. -/
theorem not_mem_take_number (cs : List Char) : '>' ∉ cs.take (number cs) := by
  unfold number
  split
  · rename_i c rest
    split
    · rename_i hmark
      have hc : '>' ≠ c := by
        rintro rfl
        exact absurd hmark (by decide)
      rw [Nat.add_comm, List.take_succ_cons, List.take_succ_cons]
      exact List.not_mem_cons_of_ne_of_not_mem (by decide)
        (List.not_mem_cons_of_ne_of_not_mem hc (not_mem_take_run (by decide) _))
    · exact not_mem_take_decimal _
  · exact not_mem_take_decimal _

end Extent

namespace Lexeme

variable {st : ScanState} {c : Char} {rest : List Char} {l : Lexeme}

/-- If the lexeme is a token that holds a closing angle bracket then it is one of those that can. -/
def Angles (c : Char) (rest : List Char) (l : Lexeme) : Prop :=
  ∀ kind, l.kind = .token kind → '>' ∈ c :: rest.take l.further →
    HoldsAngle kind (c :: rest.take l.further)

theorem Angles.of_isVerbatim {kind : TokenKind} {n : Nat} (h : kind.isVerbatim = true) :
    Angles c rest ⟨.token kind, n⟩ := by
  rintro _ ⟨⟩ -
  exact .verbatim h

theorem Angles.of_kind (h : ∀ kind, l.kind ≠ .token kind) : Angles c rest l :=
  fun kind hkind => absurd hkind (h kind)

theorem Angles.of_not_mem (h : '>' ∉ c :: rest.take l.further) : Angles c rest l :=
  fun _ _ hmem => absurd hmem h

theorem angles_bounded {kind : TokenKind} {missing : LexicalFault} (hkind : kind.isVerbatim = true)
    (hmissing : (TokenKind.fault missing).isVerbatim = true) (b : Extent.Bounded) :
    Angles c rest (bounded kind missing b) := by
  refine .of_isVerbatim ?_
  split
  · exact hkind
  · exact hmissing

theorem angles_template (first : Bool) : Angles c rest (template first rest) := by
  unfold template
  refine .of_isVerbatim ?_
  cases (Extent.template rest).2 <;> cases first <;> rfl

theorem angles_number (hc : c.isDigit = true ∨ c = '.') :
    Angles c rest ⟨.token .numberLiteral, Extent.number (c :: rest) - 1⟩ := by
  refine .of_not_mem (List.not_mem_cons_of_ne_of_not_mem ?_ fun h => ?_)
  · rintro rfl
    exact absurd hc (by decide)
  · have hmem := Extent.not_mem_take_number (c :: rest)
    cases hn : Extent.number (c :: rest) with
    | zero => exact absurd (hn ▸ h) (by simp)
    | succ n =>
      rw [hn, List.take_succ_cons] at hmem
      simp only [hn] at h
      exact hmem (List.mem_cons_of_mem _ h)

theorem angles_word (hc : isNameStart c = true) : Angles c rest (word c rest) := by
  refine .of_not_mem (List.not_mem_cons_of_ne_of_not_mem ?_ fun h => ?_)
  · rintro rfl
    exact absurd hc (by decide)
  · rw [take_word] at h
    exact absurd (List.mem_takeWhile_imp h) (by decide)

/-- **The only operators that hold a closing angle bracket** are the arrow and the unsigned shift
assignment. -/
theorem angles_punctuation (c : Char) (rest : List Char) : Angles c rest (punctuation c rest) := by
  have hlong : ∀ op ∈ longOperators, '>' ∈ op.1 → HoldsAngle op.2 op.1 := by
    have hcases : ∀ op ∈ longOperators, '>' ∈ op.1 →
        op = (['>', '>', '>', '='], .operator) ∨ op = (['=', '>'], .arrow) := by decide
    intro op hop hmem
    rcases hcases op hop hmem with rfl | rfl
    · exact .shift
    · exact .arrow
  unfold punctuation
  split
  · rename_i hdot
    refine .of_not_mem (List.not_mem_cons_of_ne_of_not_mem ?_ List.not_mem_nil)
    rintro rfl
    exact absurd hdot (by simp [isConditionalDot])
  · split
    · rename_i text kind hfind
      have hprefix : text <+: c :: rest := by simpa using List.find?_some hfind
      have hop := List.mem_of_find?_eq_some hfind
      have hpos : ∀ op ∈ longOperators, 0 < op.1.length := by decide
      have htext : c :: rest.take (text.length - 1) = text := by
        rw [← List.take_succ_cons, Nat.sub_add_cancel (hpos _ hop)]
        exact (List.prefix_iff_eq_take.mp hprefix).symm
      rintro _ ⟨⟩ hmem
      simp only [htext] at hmem ⊢
      exact hlong _ hop hmem
    · rintro _ ⟨⟩ hmem
      obtain rfl := List.mem_singleton.mp hmem
      exact .own

theorem angles_token (st : ScanState) (c : Char) (rest : List Char) :
    Angles c rest (token st c rest) :=
  token_cases (fun _ => angles_bounded rfl rfl _) (fun _ => angles_template true)
    (fun _ => angles_template false) angles_number (angles_bounded rfl rfl _) angles_word
    fun _ => angles_punctuation c rest

theorem angles_next (st : ScanState) (c : Char) (rest : List Char) :
    Angles c rest (next st c rest) :=
  next_cases (fun _ => .of_kind nofun) (fun _ _ _ => .of_kind nofun)
    (fun _ _ _ _ => .of_kind nofun) (.of_isVerbatim rfl) (angles_token st c rest)

end Lexeme

/-- **A token that holds a closing angle bracket** is verbatim, or it is that bracket, an arrow or
an unsigned shift assignment. -/
theorem holdsAngle_of_mem_pieces {st : ScanState} {cs text : List Char} {kind : TokenKind}
    (hp : ⟨.token kind, text⟩ ∈ pieces st cs) (hmem : '>' ∈ text) : HoldsAngle kind text := by
  obtain ⟨st, c, rest, hq⟩ := exists_next_of_mem_pieces hp
  obtain ⟨hkind, rfl⟩ := Piece.mk.inj hq
  exact Lexeme.angles_next st c rest kind hkind.symm hmem

/-! ## The characters of a text -/

/-- The byte at `n` is one of those in the span. -/
def Span.Covers (s : Span) (n : Nat) : Prop := s.start ≤ n ∧ n < s.stop

namespace Scan

variable {pos : Nat} {lineBefore : Bool} {ps : List Piece} {c : Char} {before after : List Char}

/-- The token has the character `c` at byte `n`. -/
def StandsIn (n : Nat) (c : Char) (t : Token) : Prop :=
  ∃ front behind, t.source.toList = front ++ c :: behind ∧
    t.span.start + byteLength front = n ∧
    t.span.stop = t.span.start + byteLength t.source.toList

/-- The character `c` at byte `n` stands in a comment or in a token of the scan. -/
def Takes (s : Scan) (n : Nat) (c : Char) : Prop :=
  (∃ remark ∈ s.comments, remark.span.Covers n) ∨ ∃ t ∈ s.tokens, StandsIn n c t

/-- What a later part of a scan takes is taken by the whole scan. -/
theorem Takes.mono {s s' : Scan} {n : Nat} (h : s.Takes n c)
    (hcomments : s.comments ⊆ s'.comments) (htokens : s.tokens ⊆ s'.tokens) : s'.Takes n c :=
  h.imp (fun ⟨remark, hremark, h⟩ => ⟨remark, hcomments hremark, h⟩)
    fun ⟨t, ht, h⟩ => ⟨t, htokens ht, h⟩

/-- **A character that is no white space stands in a comment or in a token.** -/
theorem takes_layOut (hps : ∀ p ∈ ps, p.kind = .blank → ∀ c ∈ p.text, isBlank c = true)
    (hc : isBlank c = false) (htext : (ps.map Piece.text).flatten = before ++ c :: after) :
    (layOut pos lineBefore ps).Takes (pos + byteLength before) c := by
  induction ps generalizing pos lineBefore before with
  | nil => exact absurd htext.symm (by simp)
  | cons p ps ih =>
    rw [layOut]
    rcases mem_append_cases htext with ⟨behind, hp⟩ | ⟨front, rfl, hrest⟩
    · cases hkind : p.kind with
      | blank =>
        have hmem : c ∈ p.text := hp ▸ List.mem_append_right _ (List.mem_cons_self ..)
        exact absurd (hps p (List.mem_cons_self ..) hkind c hmem) (Bool.eq_false_iff.mp hc)
      | comment kind =>
        refine .inl ⟨_, List.mem_cons_self .., Nat.le_add_right .., ?_⟩
        have hpos := utf8Size_pos c
        simp only [hp, byteLength_append, byteLength_cons]
        omega
      | token kind =>
        refine .inr ⟨_, List.mem_cons_self .., before, behind, ?_, rfl, ?_⟩
        · rw [String.toList_ofList, hp]
        · rw [String.toList_ofList]
    · have hrest : ∀ lineBefore, (layOut (pos + byteLength p.text) lineBefore ps).Takes
          (pos + byteLength p.text + byteLength front) c :=
        fun _ => ih (fun q hq => hps q (List.mem_cons_of_mem _ hq)) hrest
      rw [byteLength_append, ← Nat.add_assoc]
      cases p.kind with
      | blank => exact hrest _
      | comment kind => exact (hrest _).mono (List.subset_cons_self ..) (List.Subset.refl _)
      | token kind => exact (hrest _).mono (List.Subset.refl _) (List.subset_cons_self ..)

end Scan

namespace Token

/-- The token is an unsigned shift assignment. -/
def IsShift (t : Token) : Prop := t.kind = .operator ∧ t.source = ">>>="

instance (t : Token) : Decidable t.IsShift := inferInstanceAs (Decidable (_ ∧ _))

/-- The token with each of its closing angle brackets as a token of its own: an unsigned shift
assignment is three of them and an equals sign. -/
def oneByOne (t : Token) : TokenStream :=
  if t.IsShift then
    let start := t.span.start
    [⟨.gt, ⟨start, start + 1⟩, ">", ">", t.lineBefore⟩,
      ⟨.gt, ⟨start + 1, start + 2⟩, ">", ">", false⟩,
      ⟨.gt, ⟨start + 2, start + 3⟩, ">", ">", false⟩,
      ⟨.equals, ⟨start + 3, start + 4⟩, "=", "=", false⟩]
  else [t]

theorem oneByOne_of_not {t : Token} (h : ¬ t.IsShift) : t.oneByOne = [t] := if_neg h

theorem exists_mem_oneByOne {t : Token} (h : t.IsShift) {k : Nat} (hk : k < 3) :
    ∃ u ∈ t.oneByOne, u.kind = .gt ∧ u.span = ⟨t.span.start + k, t.span.start + k + 1⟩ := by
  rw [oneByOne, if_pos h]
  match k, hk with
  | 0, _ => exact ⟨_, .head _, rfl, rfl⟩
  | 1, _ => exact ⟨_, .tail _ (.head _), rfl, rfl⟩
  | 2, _ => exact ⟨_, .tail _ (.tail _ (.head _)), rfl, rfl⟩

/-- What the token is whose closing angle bracket stands at byte `n`: it can hold any character, or
it is an arrow, or the bracket and nothing else, or the bracket is one of an unsigned shift
assignment. -/
inductive ClosesAt (n : Nat) (t : Token) : Prop where
  | verbatim (hkind : t.kind.isVerbatim = true) (h : t.span.Covers n)
  | arrow (hkind : t.kind = .arrow) (h : t.span = ⟨n - 1, n + 1⟩) (hpos : 0 < n)
  | own (hkind : t.kind = .gt) (h : t.span = ⟨n, n + 1⟩)
  | shift (hshift : t.IsShift) {u : Token} (hu : u ∈ t.oneByOne) (hkind : u.kind = .gt)
      (h : u.span = ⟨n, n + 1⟩)

end Token

/-- What precedes a closing angle bracket in a text is read off the beginnings of the text. -/
theorem front_of_inits {P : List Char → Prop} {text front behind : List Char}
    (h : text = front ++ '>' :: behind)
    (hall : ∀ l ∈ text.inits, l.getLast? = some '>' → P l.dropLast) : P front := by
  have hmem : front ++ ['>'] ∈ text.inits := (List.mem_inits ..).mpr ⟨behind, by simp [h]⟩
  simpa using hall _ hmem

/-- **Where a closing angle bracket stands** that is in no comment. -/
theorem Scan.exists_closesAt {text : String} {before after : List Char}
    (htext : text.toList = before ++ '>' :: after) :
    (∃ remark ∈ (ofText text).comments, remark.span.Covers (byteLength before)) ∨
      ∃ t ∈ (ofText text).tokens, t.ClosesAt (byteLength before) := by
  have htakes : (ofText text).Takes (0 + byteLength before) '>' :=
    takes_layOut (fun p hp => isBlank_of_mem_pieces hp) (by decide)
      ((flatten_pieces _ _).trans htext)
  rw [Nat.zero_add] at htakes
  refine htakes.imp_right ?_
  rintro ⟨t, ht, front, behind, hsource, hstart, hstop⟩
  refine ⟨t, ht, ?_⟩
  have hmem : '>' ∈ t.source.toList := hsource ▸ List.mem_append_right _ (List.mem_cons_self ..)
  rcases piece_of_mem ht with ⟨-, hempty⟩ | hp
  · exact absurd (hempty ▸ hmem) (by decide)
  have hholds := holdsAngle_of_mem_pieces hp hmem
  generalize hkind : t.kind = kind at hholds
  generalize hchars : t.source.toList = text at hholds hsource hstop
  cases hholds with
  | verbatim hverbatim =>
    refine .verbatim (hkind ▸ hverbatim) ⟨by omega, ?_⟩
    rw [hstop, hsource, byteLength_append, byteLength_cons]
    have hpos := utf8Size_pos '>'
    omega
  | own =>
    have hfront : byteLength front = 0 :=
      front_of_inits (P := (byteLength · = 0)) hsource (by decide)
    rw [hfront, Nat.add_zero] at hstart
    rw [show byteLength ['>'] = 1 from rfl, hstart] at hstop
    exact .own hkind (congrArg₂ Span.mk hstart hstop)
  | arrow =>
    have hfront : byteLength front = 1 :=
      front_of_inits (P := (byteLength · = 1)) hsource (by decide)
    rw [show byteLength ['=', '>'] = 2 from rfl] at hstop
    have hstart' : t.span.start = byteLength before - 1 := by omega
    have hstop' : t.span.stop = byteLength before + 1 := by omega
    exact .arrow hkind (congrArg₂ Span.mk hstart' hstop') (by omega)
  | shift =>
    have hfront : byteLength front < 3 :=
      front_of_inits (P := (byteLength · < 3)) hsource (by decide)
    have hshift : t.IsShift := ⟨hkind, String.toList_inj.mp hchars⟩
    obtain ⟨u, hu, hgt, hspan⟩ := Token.exists_mem_oneByOne hshift hfront
    exact .shift hshift hu hgt (hstart ▸ hspan)

/-! ## Closing angle brackets one by one -/

namespace TokenStream

variable {ts inner behind front : TokenStream} {t l g : Token}

/-- The tokens of a text if every closing angle bracket is one. -/
def oneByOne (ts : TokenStream) : TokenStream := ts.flatMap Token.oneByOne

theorem oneByOne_cons (t : Token) (ts : TokenStream) :
    oneByOne (t :: ts) = t.oneByOne ++ oneByOne ts := List.flatMap_cons

theorem oneByOne_append (ts ts' : TokenStream) :
    oneByOne (ts ++ ts') = oneByOne ts ++ oneByOne ts' := List.flatMap_append

theorem oneByOne_cons_of_ne (h : t.kind ≠ .operator) (ts : TokenStream) :
    oneByOne (t :: ts) = t :: oneByOne ts := by
  rw [oneByOne_cons, Token.oneByOne_of_not fun hshift => h hshift.1]
  rfl

/-- Without unsigned shift assignments nothing is taken apart. -/
theorem oneByOne_eq_self (h : ∀ t ∈ ts, ¬ t.IsShift) : oneByOne ts = ts := by
  induction ts with
  | nil => rfl
  | cons t ts ih =>
    obtain ⟨ht, hts⟩ := List.forall_mem_cons.mp h
    rw [oneByOne_cons, Token.oneByOne_of_not ht, ih hts]
    rfl

/-- What comes first among the tokens one by one is a token, or it begins an unsigned shift
assignment. -/
theorem of_oneByOne_cons (h : oneByOne ts = t :: behind) :
    (∃ rest, ts = t :: rest ∧ oneByOne rest = behind) ∨
      t.kind = .gt ∧ ∃ u rest, ts = u :: rest ∧ u.IsShift := by
  cases ts with
  | nil => contradiction
  | cons u rest =>
    rw [oneByOne_cons] at h
    by_cases hu : u.IsShift
    · rw [Token.oneByOne, if_pos hu] at h
      obtain ⟨rfl, -⟩ := List.cons.inj h
      exact .inr ⟨rfl, u, rest, rfl, hu⟩
    · rw [Token.oneByOne_of_not hu] at h
      obtain ⟨rfl, hrest⟩ := List.cons.inj h
      exact .inl ⟨rest, rfl, hrest⟩

/-- A token is one of its own unless it is part of an unsigned shift assignment. -/
theorem eq_of_mem_oneByOne {u : Token} (h : t ∈ u.oneByOne) (hgt : t.kind ≠ .gt)
    (hequals : t.kind ≠ .equals) : t = u ∧ u.oneByOne = [u] := by
  by_cases hu : u.IsShift
  · rw [Token.oneByOne, if_pos hu] at h
    have hkind : t.kind ∈ [TokenKind.gt, .gt, .gt, .equals] := List.mem_map_of_mem h
    simp [hgt, hequals] at hkind
  · rw [Token.oneByOne_of_not hu] at h
    exact ⟨List.mem_singleton.mp h, Token.oneByOne_of_not hu⟩

/-- What stands before and behind such a token are the tokens before and behind it. -/
theorem of_oneByOne_append (h : oneByOne ts = front ++ t :: behind) (hgt : t.kind ≠ .gt)
    (hequals : t.kind ≠ .equals) :
    ∃ left right, ts = left ++ t :: right ∧ oneByOne left = front ∧ oneByOne right = behind := by
  induction ts generalizing front with
  | nil => exact absurd h.symm (by simp [oneByOne])
  | cons u ts ih =>
    rw [oneByOne_cons] at h
    rcases mem_append_cases h with ⟨more, hu⟩ | ⟨front, rfl, hrest⟩
    · obtain ⟨rfl, hsingle⟩ :=
        eq_of_mem_oneByOne (hu ▸ List.mem_append_right _ (List.mem_cons_self ..)) hgt hequals
      obtain rfl : front = [] := by
        cases front with
        | nil => rfl
        | cons c front => exact absurd (List.cons.inj (hsingle.symm.trans hu)).2 (by simp)
      rw [hsingle] at h
      exact ⟨[], ts, rfl, rfl, (List.cons.inj h).2⟩
    · obtain ⟨left, right, rfl, rfl, hright⟩ := ih hrest
      exact ⟨u :: left, right, rfl, oneByOne_cons .., hright⟩

/-- No bracket is part of an unsigned shift assignment. -/
theorem foldlM_oneByOne (ts : TokenStream) (opened : List TokenKind) :
    (oneByOne ts).foldlM readBracket? opened = ts.foldlM readBracket? opened := by
  induction ts generalizing opened with
  | nil => rfl
  | cons t ts ih =>
    by_cases ht : t.IsShift
    · have hplain : readBracket? opened t = some opened :=
        readBracket?_plain (ht.1 ▸ rfl) (ht.1 ▸ rfl)
      rw [oneByOne_cons, Token.oneByOne, if_pos ht, List.foldlM_cons, hplain]
      exact ih opened
    · rw [oneByOne_cons, Token.oneByOne_of_not ht, List.singleton_append, List.foldlM_cons,
        List.foldlM_cons]
      exact congrArg _ (funext ih)

theorem bracketed_oneByOne_iff : Bracketed (oneByOne ts) ↔ Bracketed ts := by
  rw [← run_nil_iff, foldlM_oneByOne, run_nil_iff]

/-! ## The search for the closer of a list -/

/-- Tokens in which brackets and angle brackets are nested, whatever else stands between them. -/
inductive AngleNested : TokenStream → Prop where
  | nil : AngleNested []
  | plain {t : Token} {ts : TokenStream} (hopen : t.kind.isOpener = false)
      (hclose : t.kind.isCloser = false) (hlt : t.kind ≠ .lt) (hgt : t.kind ≠ .gt)
      (h : AngleNested ts) : AngleNested (t :: ts)
  | group {o c : Token} {inner ts : TokenStream} (hpair : o.kind.closer? = some c.kind)
      (hinner : Bracketed inner) (h : AngleNested ts) : AngleNested (o :: (inner ++ c :: ts))
  | angles {l g : Token} {inner ts : TokenStream} (hl : l.kind = .lt) (hg : g.kind = .gt)
      (hinner : AngleNested inner) (h : AngleNested ts) : AngleNested (l :: (inner ++ g :: ts))

/-- The search for the closer of a list that holds the tokens `inner` stops behind `passed` in `ts`,
at a token that ends type arguments.  That is an unsigned shift assignment, or one of the tokens in
the list. -/
structure Stops (ts inner passed : TokenStream) (t : Token) : Prop where
  eq : ∃ rest, ts = passed ++ t :: rest
  isPrefix : oneByOne passed <+: inner
  bracketed : Bracketed passed
  ends : endsTypeArguments t.kind = true
  isShift_or_mem : t.IsShift ∨ t ∈ inner
  none : ∀ depth, angleOffset? depth ts = none

theorem angleOffset?_ends (h : endsTypeArguments t.kind = true) (depth : Nat)
    (rest : TokenStream) : angleOffset? depth (t :: rest) = none := by
  have hne : t.kind ≠ .lt ∧ t.kind ≠ .gt ∧ t.kind.isOpener ≠ true := by
    unfold endsTypeArguments at h
    split at h <;> simp_all [TokenKind.isOpener]
  cases depth <;> rw [angleOffset?, if_neg hne.1, if_neg hne.2.1, if_neg hne.2.2, if_pos h]

namespace Stops

variable {passed : TokenStream}

theorem of_ends (h : endsTypeArguments t.kind = true) (ht : t.IsShift ∨ t ∈ inner)
    (rest : TokenStream) : Stops (t :: rest) inner [] t where
  eq := ⟨rest, rfl⟩
  isPrefix := List.nil_prefix
  bracketed := .nil
  ends := h
  isShift_or_mem := ht
  none depth := angleOffset?_ends h depth rest

/-- The search stops at an unsigned shift assignment, whatever the list holds. -/
theorem of_isShift (h : t.IsShift) (rest : TokenStream) : Stops (t :: rest) [] [] t :=
  .of_ends (h.1 ▸ rfl) (.inl h) rest

/-- The list may hold more than what comes before the place where the search stops. -/
theorem extend (h : Stops ts inner passed t) (more : TokenStream) :
    Stops ts (inner ++ more) passed t where
  eq := h.eq
  isPrefix := h.isPrefix.trans (List.prefix_append ..)
  bracketed := h.bracketed
  ends := h.ends
  isShift_or_mem := h.isShift_or_mem.imp_right (List.mem_append_left _)
  none := h.none

/-- The search stops behind tokens with balanced brackets and angle brackets. -/
theorem prepend (h : Stops ts inner passed t) (hfront : AngleBracketed front) :
    Stops (front ++ ts) (oneByOne front ++ inner) (front ++ passed) t where
  eq := by
    obtain ⟨rest, rfl⟩ := h.eq
    exact ⟨rest, (List.append_assoc ..).symm⟩
  isPrefix := by
    rw [oneByOne_append]
    exact (List.prefix_append_right_inj _).mpr h.isPrefix
  bracketed := hfront.bracketed.append h.bracketed
  ends := h.ends
  isShift_or_mem := h.isShift_or_mem.imp_right (List.mem_append_right _)
  none depth := by rw [angleOffset?_angleBracketed hfront, h.none, Option.map_none]

/-- The search stops in a list within the list. -/
theorem cons_lt (h : Stops ts inner passed t) (hl : l.kind = .lt) :
    Stops (l :: ts) (l :: inner) (l :: passed) t where
  eq := by
    obtain ⟨rest, rfl⟩ := h.eq
    exact ⟨rest, rfl⟩
  isPrefix := by
    rw [oneByOne_cons_of_ne (hl.trans_ne (by decide))]
    exact List.cons_prefix_cons.mpr ⟨rfl, h.isPrefix⟩
  bracketed := .plain (hl ▸ rfl) (hl ▸ rfl) h.bracketed
  ends := h.ends
  isShift_or_mem := h.isShift_or_mem.imp_right (List.mem_cons_of_mem _)
  none depth := by rw [angleOffset?_lt hl, h.none, Option.map_none]

end Stops

/-- The search passes over the tokens `inner` at the beginning of `ts`, behind which `behind`
stands, or it stops among them. -/
def PassesOrStops (ts inner behind : TokenStream) : Prop :=
  (∃ found rest, ts = found ++ rest ∧ oneByOne found = inner ∧ oneByOne rest = behind ∧
    AngleBracketed found) ∨ ∃ passed t, Stops ts inner passed t

theorem PassesOrStops.prepend (h : PassesOrStops ts inner behind) (hfront : AngleBracketed front) :
    PassesOrStops (front ++ ts) (oneByOne front ++ inner) behind := by
  obtain ⟨found, rest, rfl, rfl, hrest, hfound⟩ | ⟨passed, t, hstops⟩ := h
  · exact .inl ⟨front ++ found, rest, (List.append_assoc ..).symm, oneByOne_append .., hrest,
      hfront.append hfound⟩
  · exact .inr ⟨front ++ passed, t, hstops.prepend hfront⟩

/-- **The tokens of a list are passed over, or the search stops among them.** -/
theorem passesOrStops_of_angleNested (hnested : AngleNested inner)
    (h : oneByOne ts = inner ++ behind) : PassesOrStops ts inner behind := by
  induction hnested generalizing ts behind with
  | nil => exact .inl ⟨[], ts, rfl, rfl, h, .nil⟩
  | @plain t inner hopen hclose hlt hgt _ ih =>
    -- what is no closing angle bracket does not come from a shift that was taken apart
    obtain ⟨ts, rfl, hrest⟩ : ∃ rest, ts = t :: rest ∧ oneByOne rest = inner ++ behind :=
      (of_oneByOne_cons h).resolve_right fun hshift => hgt hshift.1
    by_cases hends : endsTypeArguments t.kind = true
    · exact .inr ⟨[], t, .of_ends hends (.inr (List.mem_cons_self ..)) ts⟩
    · have hplain : t.kind.isPlain = true := by simp [TokenKind.isPlain, *]
      have hpasses := (ih hrest).prepend (.plain hplain .nil)
      rwa [oneByOne_cons_of_ne fun hkind => hends (hkind ▸ rfl)] at hpasses
  | @group o c inner inner' hpair hinner _ ih =>
    have hopener : ∀ k, TokenKind.isOpener k = false → o.kind ≠ k :=
      fun _ => TokenKind.ne_of_true_of_false (TokenKind.isOpener_of_closer? hpair)
    have hcloser : ∀ k, TokenKind.isCloser k = false → c.kind ≠ k :=
      fun _ => TokenKind.ne_of_true_of_false (TokenKind.isCloser_of_closer? hpair)
    obtain ⟨ts, rfl, hrest⟩ :
        ∃ rest, ts = o :: rest ∧ oneByOne rest = inner ++ c :: (inner' ++ behind) := by
      rw [List.cons_append, List.append_assoc] at h
      exact (of_oneByOne_cons h).resolve_right fun hshift => hopener _ rfl hshift.1
    obtain ⟨left, right, rfl, rfl, hright⟩ :=
      of_oneByOne_append hrest (hcloser _ rfl) (hcloser _ rfl)
    have hpasses := (ih hright).prepend (.group hpair (bracketed_oneByOne_iff.mp hinner) .nil)
    rw [oneByOne_cons_of_ne (hopener _ rfl), oneByOne_append,
      oneByOne_cons_of_ne (hcloser _ rfl)] at hpasses
    simpa [oneByOne] using hpasses
  | @angles l g inner inner' hl hg _ _ ihinner ih =>
    have hgt : l.kind ≠ .gt := hl.trans_ne (by decide)
    obtain ⟨ts, rfl, hrest⟩ :
        ∃ rest, ts = l :: rest ∧ oneByOne rest = inner ++ g :: (inner' ++ behind) := by
      rw [List.cons_append, List.append_assoc] at h
      exact (of_oneByOne_cons h).resolve_right fun hshift => hgt hshift.1
    obtain ⟨found, rest, rfl, rfl, hbehind, hfound⟩ | ⟨passed, t, hstops⟩ := ihinner hrest
    · -- the closer of the inner list is a token, or the first character of a shift
      obtain ⟨right, rfl, hright⟩ | ⟨-, u, right, rfl, hu⟩ := of_oneByOne_cons hbehind
      · have hpasses := (ih hright).prepend (.angles hl hg hfound .nil)
        rw [oneByOne_cons_of_ne (hl.trans_ne (by decide)), oneByOne_append,
          oneByOne_cons_of_ne (hg.trans_ne (by decide))] at hpasses
        simpa [oneByOne] using hpasses
      · have hstops := ((Stops.of_isShift hu right).prepend hfound).cons_lt hl
        rw [List.append_nil] at hstops
        exact .inr ⟨_, u, hstops.extend _⟩
    · exact .inr ⟨_, t, (hstops.cons_lt hl).extend _⟩

/-- **The closer of a list is found, or the search stops in the list.** -/
theorem matchingAngle?_of_angleNested (hnested : AngleNested inner) (hl : l.kind = .lt)
    (hg : g.kind = .gt) (h : oneByOne ts = front ++ l :: (inner ++ g :: behind)) :
    ∃ left right, ts = left ++ l :: right ∧ oneByOne left = front ∧
      ((∃ found rest, right = found ++ g :: rest ∧ oneByOne found = inner ∧
          oneByOne rest = behind ∧
          ts.matchingAngle? left.length = some (left.length + (found.length + 1))) ∨
        ∃ passed t, Stops right inner passed t ∧ ts.matchingAngle? left.length = none) := by
  obtain ⟨left, right, rfl, hleft, h⟩ := of_oneByOne_append h (hl.trans_ne (by decide))
    (hl.trans_ne (by decide))
  have hangle : matchingAngle? (left ++ l :: right) left.length =
      ((angleOffset? 0 right).map (· + 1)).map (left.length + ·) := by
    rw [matchingAngle?, List.drop_left, angleSpan?, if_pos hl]
  refine ⟨left, right, rfl, hleft, ?_⟩
  rw [hangle]
  -- behind the tokens of the list its closer may still be part of a shift
  obtain ⟨found, rest, rfl, hinner, hrest, hfound⟩ | ⟨passed, t, hstops⟩ :=
    passesOrStops_of_angleNested hnested h
  · obtain ⟨rest, rfl, hbehind⟩ | ⟨-, u, rest, rfl, hu⟩ := of_oneByOne_cons hrest
    · refine .inl ⟨found, rest, rfl, hinner, hbehind, ?_⟩
      rw [angleOffset?_angleBracketed hfound, angleOffset?_gt hg]
      simp
    · have hstops := (Stops.of_isShift hu rest).prepend hfound
      rw [hinner, List.append_nil] at hstops
      refine .inr ⟨_, u, hstops, ?_⟩
      rw [hstops.none]
      rfl
  · refine .inr ⟨passed, t, hstops, ?_⟩
    rw [hstops.none]
    rfl

end TokenStream

/-- **Type argument lists close one level at a time,** but for the unsigned shift assignment.  Every
closing angle bracket of a text stands in a comment, in a token that can hold any character or in an
arrow, or it is a token of its own or one of those of an unsigned shift assignment.  Where a list is
nested among these, one by one, at any depth and with anything behind it, the search for its closer
finds it.  If it does not then it stops before that, at an unsigned shift assignment or at a token
of the list that ends type arguments. -/
theorem closing_angles (text : String) :
    let tokens : TokenStream := (Scan.ofText text).tokens
    (∀ before after, text.toList = before ++ '>' :: after →
      (∃ remark ∈ (Scan.ofText text).comments, remark.span.Covers (byteLength before)) ∨
        ∃ t ∈ tokens, t.ClosesAt (byteLength before)) ∧
    ∀ front l inner g behind, AngleNested inner → l.kind = .lt → g.kind = .gt →
      oneByOne tokens = front ++ l :: (inner ++ g :: behind) →
        ∃ left right, tokens = left ++ l :: right ∧ oneByOne left = front ∧
          ((∃ found rest, right = found ++ g :: rest ∧ oneByOne found = inner ∧
              oneByOne rest = behind ∧
              tokens.matchingAngle? left.length = some (left.length + (found.length + 1))) ∨
            ∃ passed t, Stops right inner passed t ∧
              tokens.matchingAngle? left.length = none) :=
  ⟨fun _ _ => Scan.exists_closesAt,
    fun _ _ _ _ _ hnested hl hg h => matchingAngle?_of_angleNested hnested hl hg h⟩

/-- Two lists, one in the other, which an assignment follows directly. -/
def nestedLists : String := "a<b<c>>=d"

/-- The outer list is closed by the last closing angle bracket, which is a token of its own. -/
theorem closing_angles_nestedLists :
    let tokens : TokenStream := (Scan.ofText nestedLists).tokens
    (∃ t ∈ tokens, t.kind = .gt ∧ t.span = ⟨6, 7⟩) ∧ tokens.matchingAngle? 1 = some 6 := by
  intro tokens
  let a : Token := ⟨.identifier, ⟨0, 1⟩, "a", "a", true⟩
  let l : Token := ⟨.lt, ⟨1, 2⟩, "<", "<", false⟩
  let b : Token := ⟨.identifier, ⟨2, 3⟩, "b", "b", false⟩
  let l' : Token := ⟨.lt, ⟨3, 4⟩, "<", "<", false⟩
  let c : Token := ⟨.identifier, ⟨4, 5⟩, "c", "c", false⟩
  let g' : Token := ⟨.gt, ⟨5, 6⟩, ">", ">", false⟩
  let g : Token := ⟨.gt, ⟨6, 7⟩, ">", ">", false⟩
  have hshift : ∀ t ∈ tokens, ¬ t.IsShift := by decide +kernel
  have htokens : oneByOne tokens = [a] ++ l :: ([b, l', c, g'] ++ g :: tokens.drop 7) := by
    decide +kernel
  have hnested : AngleNested [b, l', c, g'] :=
    .plain rfl rfl nofun nofun (@AngleNested.angles l' g' [c] [] rfl rfl
      (.plain rfl rfl nofun nofun .nil) .nil)
  obtain ⟨hwhere, hclosed⟩ := closing_angles nestedLists
  refine ⟨?_, ?_⟩
  · have hcomments : (Scan.ofText nestedLists).comments = [] := by decide +kernel
    have hkinds : ∀ t ∈ tokens, t.kind.isVerbatim = false ∧ t.kind ≠ .arrow := by decide +kernel
    rcases hwhere "a<b<c>".toList "=d".toList (by decide) with
      ⟨remark, hremark, -⟩ | ⟨t, ht, hcloses⟩
    · exact absurd (hcomments ▸ hremark) nofun
    · cases hcloses with
      | verbatim hkind => exact absurd ((hkinds t ht).1.symm.trans hkind) nofun
      | arrow hkind => exact absurd hkind (hkinds t ht).2
      | own hkind hspan => exact ⟨t, ht, hkind, hspan⟩
      | shift hu => exact absurd hu (hshift t ht)
  · obtain ⟨left, right, hsplit, hleft, hcases⟩ := hclosed _ l _ g _ hnested rfl rfl htokens
    have hparts : ∀ t ∈ left ++ l :: right, ¬ t.IsShift := fun t ht =>
      hshift t (show t ∈ (Scan.ofText nestedLists).tokens from hsplit ▸ ht)
    rcases hcases with ⟨found, rest, rfl, hinner, -, hmatching⟩ | ⟨passed, t, hstops, -⟩
    · rw [oneByOne_eq_self fun t ht => hparts t (by simp [ht])] at hleft hinner
      rw [hleft, hinner] at hmatching
      exact hmatching
    · obtain ⟨rest, rfl⟩ := hstops.eq
      have hends : ∀ t ∈ [b, l', c, g'], endsTypeArguments t.kind = false := by decide
      rcases hstops.isShift_or_mem with hu | hmem
      · exact absurd hu (hparts t (by simp))
      · exact absurd ((hends t hmem).symm.trans hstops.ends) nofun

/-- **Some lists are not closed.**  Where an assignment follows three levels directly, the three
brackets are in one token with the equals sign, at which the search stops; one by one the tokens are
those of the text in which the equals sign stands apart, where the list is closed.  The search also
stops at the sign of a negative number. -/
theorem lists_left_open :
    let joined : TokenStream := (Scan.ofText "let a: A<B<C<D>>>= y").tokens
    let apart : TokenStream := (Scan.ofText "let a: A<B<C<D>>> = y").tokens
    let negative : TokenStream := (Scan.ofText "f<-1>(y)").tokens
    ((∀ t ∈ joined, t.kind ≠ .gt) ∧ joined.matchingAngle? 4 = none) ∧
      ((oneByOne joined).map Token.kind = apart.map Token.kind ∧
        apart.matchingAngle? 4 = some 12) ∧
      (negative.kind 3 = .numberLiteral ∧ negative.kind 4 = .gt) ∧
        negative.matchingAngle? 1 = none := by
  decide +kernel

end TypeScriptEngine
