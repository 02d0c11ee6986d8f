import TypeScriptEngine.Proofs.Seam.Program

/-! # The tokens of the code

A statement on a line of its own is taken for one just if the end of the statement before it shows,
and if all ends show then neither `export` nor `type` is left in the code (`statements_recognised`).
The code is scanned as the words that it is put together from: a word that is left ends before what
stands behind it in the code, because that begins as it does in the text or with a space.
-/

namespace TypeScriptEngine.Seam

open TypeScriptEngine.Text TokenStream ModuleSyntax Grammar
open Emit (Goal)

/-! ## Texts of words -/

/-- A text is put together from words of certain kinds, each of which ends before what is behind it,
and white space and comments. -/
inductive Scanned (P : TokenKind → Prop) : List Char → Prop where
  | last {last : List Char} (h : Rendered (fun _ => True) last []) : Scanned P last
  | cons {gap rest : List Char} (hgap : Gap (fun _ => True) gap) (s : Solid) (hkind : P s.word.kind)
      (hends : s.EndsBefore rest) (h : Scanned P rest) : Scanned P (gap ++ (s.word.text ++ rest))

namespace Scanned

variable {P : TokenKind → Prop} {text rest : List Char}

/-- **The tokens of such a text are of these kinds.** -/
theorem kind_of_mem (h : Scanned P text) {st : ScanState} (hst : .substitution ∉ st.openings)
    {pos : Nat} {lineBefore : Bool} {t : Token}
    (ht : t ∈ (Scan.layOut pos lineBefore (pieces st text)).tokens) : t.kind = .eof ∨ P t.kind := by
  induction h generalizing st pos lineBefore with
  | last h =>
    obtain ⟨place, p, htokens, -⟩ := h.exists_tokens hst pos lineBefore 0
    rw [htokens] at ht
    exact .inl (List.mem_singleton.mp ht ▸ rfl)
  | @cons gap rest hgap s hkind hends _ ih =>
    obtain ⟨_, -, htokens, -⟩ := Scan.moves_gap hgap pos lineBefore st (s.word.text ++ rest)
    rw [htokens, s.scans st hst rest hends, Scan.layOut] at ht
    rcases List.mem_cons.mp ht with rfl | ht
    · exact .inr hkind
    · exact ih (s.word.not_mem_openings hst) ht

theorem prepend {gap : List Char} (hgap : Gap (fun _ => True) gap) (h : Scanned P text) :
    Scanned P (gap ++ text) := by
  cases h with
  | last h => exact .last (h.prepend hgap)
  | cons hgap' s hkind hends h =>
    rw [← List.append_assoc]
    exact .cons (hgap.append hgap') s hkind hends h

theorem space (h : Scanned P rest) : Scanned P (' ' :: rest) :=
  h.prepend (.blank rfl .nil)

theorem atom (a : Atom) (hkind : P a.kind) (hends : a.EndsBefore rest) (h : Scanned P rest) :
    Scanned P (a.text ++ rest) :=
  .cons .nil (.ofAtom a) hkind hends h

theorem atomBefore {c : Char} (a : Atom) (hkind : P a.kind) (hends : a.goesOnWith c = false)
    (h : Scanned P (c :: rest)) : Scanned P (a.text ++ c :: rest) :=
  .atom a hkind (fun _ hc => Option.mem_some.mp hc ▸ hends) h

end Scanned

/-! ## What the emitter adds -/

/-- Kinds of words that stay. -/
def Remains (k : TokenKind) : Prop := k ≠ .kwExport ∧ k ≠ .kwType

instance (k : TokenKind) : Decidable (Remains k) := inferInstanceAs (Decidable (_ ∧ _))

/-- A word that is written apart from what is behind it. -/
def Solid.ofWord (w : Word) : Solid where
  word := w
  goesOnWith c := !isBlank c
  goesOnWith_of_isBlank c hc := by simp [hc]
  scans st hst rest hrest := w.spells.scans st hst rest fun c hc => by simpa using hrest c hc

section

variable {rest : List Char}

/-- The assignment behind a constant is scanned as it is written. -/
theorem scanned_assignment (name : Ident) (h : Scanned Remains rest) :
    Scanned Remains (assignment name ++ rest) := by
  have hname : Remains name.atom.kind := by
    rw [show name.atom.kind = .identifier from name.isIdentifier]
    decide
  let exports : Atom := .word ⟨"exports".toList, by decide, by decide⟩
  have htext : assignment name ++ rest = ' ' :: (exports.text ++ ((Atom.sign .dot).text ++
      (name.atom.text ++ ' ' :: ((Atom.sign .equals).text ++ ' ' :: (name.atom.text ++
        ((Atom.sign .semicolon).text ++ rest)))))) := by
    simp [assignment, Emit.assignments, Emit.exportAs, Ident.text, Ident.atom, Atom.text, exports,
      Sign.char]
  -- a dot does not go on with the first letter of a name
  have hdot : (Atom.sign .dot).EndsBefore (name.atom.text ++ ' ' ::
      ((Atom.sign .equals).text ++ ' ' :: (name.atom.text ++ ((Atom.sign .semicolon).text ++ rest)))) := by
    obtain ⟨letters, _⟩ := name
    obtain ⟨_ | ⟨first, text⟩, hstart, _⟩ := letters
    · contradiction
    · intro c hc
      obtain rfl : first = c := Option.some.inj hc
      have hne : first ≠ '.' := by
        rintro rfl
        contradiction
      have hdigit := isDigit_of_isNameStart (show isNameStart first = true from hstart)
      simp [Atom.goesOnWith, Sign.goesOnWith, hne, hdigit]
  have hspace : name.atom.goesOnWith ' ' = false := name.atom.goesOnWith_of_isBlank rfl
  have hsemicolon : name.atom.goesOnWith ';' = false := show isNamePart ';' = false by decide
  rw [htext]
  refine .space (.atomBefore exports (by decide) (by decide) (.atom _ (by decide) hdot ?_))
  refine .atomBefore _ hname hspace (.space (.atomBefore _ (by decide) (by decide) (.space ?_)))
  exact .atomBefore _ hname hsemicolon (.atom (.sign .semicolon) (by decide) (fun _ _ => rfl) h)

/-- The marker of a module is scanned as it is written. -/
theorem scanned_marker (h : Scanned Remains rest) :
    Scanned Remains (Emit.moduleMarker.toList ++ rest) := by
  let strict : Atom := .string ⟨'"', "use strict".toList, .inl rfl, quotable_of_plain (by decide)⟩
  let object : Atom := .word ⟨"Object".toList, by decide, by decide⟩
  let define : Atom := .word ⟨"defineProperty".toList, by decide, by decide⟩
  let exports : Atom := .word ⟨"exports".toList, by decide, by decide⟩
  let key : Atom := .string ⟨'"', "__esModule".toList, .inl rfl, quotable_of_plain (by decide)⟩
  let value : Atom := .word ⟨"value".toList, by decide, by decide⟩
  let yes : Atom := .word ⟨"true".toList, by decide, by decide⟩
  have hcolon : ∀ {rest : List Char}, Scanned Remains (' ' :: rest) →
      Scanned Remains (':' :: ' ' :: rest) := fun h =>
    .cons .nil (.ofWord (.of .colon)) (by decide)
      (fun c hc => Option.mem_some.mp hc ▸ by decide) h
  have hend : Scanned Remains (" \x7d); ".toList ++ rest) :=
    .space (.atomBefore (.sign .rbrace) (by decide) (by decide)
      (.atomBefore (.sign .rparen) (by decide) (by decide)
        (.atomBefore (.sign .semicolon) (by decide) (by decide) h.space)))
  have hvalue : Scanned Remains (" \x7b value: true \x7d); ".toList ++ rest) :=
    .space (.atomBefore (.sign .lbrace) (by decide) (by decide) (.space
      (.atomBefore value (by decide) (by decide) (hcolon (.space
        (.atomBefore yes (by decide) (by decide) hend))))))
  have harguments : Scanned Remains
      ("(exports, \"__esModule\", \x7b value: true \x7d); ".toList ++ rest) :=
    .atomBefore (.sign .lparen) (by decide) (by decide)
      (.atomBefore exports (by decide) (by decide)
        (.atomBefore (.sign .comma) (by decide) (by decide) (.space
          (.atomBefore key (by decide) (by decide)
            (.atomBefore (.sign .comma) (by decide) (by decide) hvalue)))))
  exact .atomBefore strict (by decide) (by decide)
    (.atomBefore (.sign .semicolon) (by decide) (by decide) (.space
      (.atomBefore object (by decide) (by decide)
        (.atomBefore (.sign .dot) (by decide) (by decide)
          (.atomBefore define (by decide) (by decide) harguments)))))

end

/-! ## What the emitter leaves -/

/-- A text does not begin with a character of names. -/
def Soft (rest : List Char) : Prop := ∀ c ∈ rest.head?, isNamePart c = false

theorem soft_gap {remarks : List Char → Prop} {gap rest : List Char} (h : Gap remarks gap)
    (hrest : Soft rest) : Soft (gap ++ rest) := by
  cases h with
  | nil => exact hrest
  | blank hc _ => exact fun _ h => Option.mem_some.mp h ▸ isNamePart_of_isBlank hc
  | block _ _ => exact fun _ h => Option.mem_some.mp h ▸ by decide
  | line _ _ _ => exact fun _ h => Option.mem_some.mp h ▸ by decide

theorem soft_rendered {last : List Char} (h : Rendered (fun _ => True) last []) : Soft last := by
  cases h with
  | gap hgap => exact List.append_nil last ▸ soft_gap hgap fun _ h => by contradiction
  | remark hgap _ _ => exact soft_gap hgap fun _ h => Option.mem_some.mp h ▸ by decide

/-- A word that is erased stands directly behind a name, and a semicolon at most is behind it. -/
def Marked (bs : List Bit) : Prop := ∀ before b c after, bs = before ++ b :: c :: after →
  isErased c.word = true → (∃ n : Ident, b.word = n.word) ∧ c.gap = [] ∧
    ∀ d ∈ after.head?, d.word = .of .semicolon

theorem Marked.tail {b : Bit} {bs : List Bit} (h : Marked (b :: bs)) : Marked bs :=
  fun before c d after hbs => h (b :: before) c d after (by rw [hbs]; rfl)

theorem Firm.gap_head {bs : List Bit} {rest : List Char} (h : Firm bs rest) :
    ∀ b ∈ bs.head?, Gap (fun _ => True) b.gap := by
  cases h with
  | nil => exact fun _ h => by contradiction
  | cons hgap => exact fun _ h => Option.mem_some.mp h ▸ hgap

/-- What is left of words that end in a text still ends before what takes the place of `rest`. -/
theorem scanned_codeOf {bs : List Bit} {rest out : List Char} (h : Firm bs rest)
    (hkinds : ∀ b ∈ bs, isErased b.word = false → Remains b.word.kind) (hmarked : Marked bs)
    (hends : ∀ s : Solid, s.EndsBefore rest → s.EndsBefore out) (hsoft : Soft out)
    (hout : Scanned Remains out) : Scanned Remains (codeOf bs ++ out) := by
  induction h with
  | nil => exact hout
  | @cons b bs rest hgap s hword hs hbs ih =>
    obtain ⟨hkind, hkinds⟩ := List.forall_mem_cons.mp hkinds
    have ih := ih hkinds hmarked.tail hends
    rw [codeOf, List.append_assoc, List.append_assoc]
    cases herased : isErased b.word with
    | true => exact ih.prepend hgap
    | false =>
      -- the word still ends where it ended, or the mark behind a name is gone
      obtain ⟨s', hword', hs'⟩ : ∃ s' : Solid, s'.word = b.word ∧ s'.EndsBefore (codeOf bs ++ out) := by
        cases bs with
        | nil => exact ⟨s, hword, hends s hs⟩
        | cons c cs =>
          cases hnext : isErased c.word with
          | false =>
            refine ⟨s, hword, fun d hd => hs d ?_⟩
            have hne : c.gap ++ c.word.text ≠ [] := fun h => by
              have := byteLength_text_pos c.word
              rw [(List.append_eq_nil_iff.mp h).2] at this
              exact absurd this (by decide)
            rw [codeOf, hnext, if_neg (by decide), ← List.append_assoc, List.append_assoc,
              List.head?_append_of_ne_nil _ hne] at hd
            rw [textOf, ← List.append_assoc, List.append_assoc, List.head?_append_of_ne_nil _ hne]
            exact hd
          | true =>
            obtain ⟨⟨n, hn⟩, hnone, hafter⟩ := hmarked [] b c cs rfl hnext
            refine ⟨.ofAtom n.atom, hn.symm, ?_⟩
            change Soft (codeOf (c :: cs) ++ out)
            rw [codeOf, hnext, if_pos rfl, hnone]
            cases cs with
            | nil => exact hsoft
            | cons d ds =>
              cases hbs with
              | cons _ _ _ _ hcs =>
                have hgap := hcs.gap_head d rfl
                have hsemicolon := hafter d rfl
                have herased : isErased d.word = false := by rw [hsemicolon]; rfl
                rw [codeOf, herased, if_neg (by decide), hsemicolon, List.nil_append, List.nil_append,
                  List.append_assoc]
                exact soft_gap hgap fun _ h => Option.mem_some.mp h ▸ by decide
      rw [if_neg (by decide), ← hword']
      exact .cons hgap s' (hword' ▸ hkind herased) hs' ih

/-! ## The words of a constant -/

theorem remains_of_quiet {k : TokenKind} (h : Emit.isQuiet k = true) : Remains k := by
  constructor <;> rintro rfl <;> contradiction

/-- Behind the word `const` the mark of an assertion alone is erased. -/
theorem tailWords_marked {name : Ident} {value : Value} {semicolon : Bool} {before after : List Word}
    {v w : Word} (h : .of .kwConst :: tailWords name value semicolon = before ++ v :: w :: after)
    (hw : isErased w = true) :
    (∃ n : Ident, v = n.word) ∧ w = mark ∧ ∀ d ∈ after.head?, d = .of .semicolon := by
  have hget : (tailWords name value semicolon)[before.length]? = some w := by
    have hget := congrArg (·[before.length + 1]?) h
    simpa using hget
  rcases tailWords_quiet name value semicolon hget with hquiet | ⟨hlength, n, rfl, hmark⟩
  · exact absurd hw (Bool.eq_false_iff.mp (isErased_of_quiet hquiet))
  · obtain ⟨a, b, c, rfl⟩ := List.length_eq_three.mp hlength
    have hafter : (if semicolon then [Word.of .semicolon] else []) = after := by
      simpa [tailWords, definition, Value.words] using congrArg (List.drop 5) h
    have hv : n.word = v := Option.some.inj (congrArg (·[3]?) h)
    refine ⟨⟨n, hv.symm⟩, hmark, fun d hd => ?_⟩
    rw [← hafter] at hd
    split at hd
    · exact (Option.mem_some.mp hd).symm
    · contradiction

theorem Line.marked {l : Line} {exported : Bool} {name : Ident} {value : Value}
    (hstatement : l.statement = .constant exported name value)
    (htouch : ∀ b ∈ l.bits, b.word = mark → b.gap = []) : Marked l.bits := by
  intro before b c after hbits herased
  have hwords := l.words_bits
  rw [hstatement, hbits, List.map_append, List.map_cons, List.map_cons] at hwords
  obtain ⟨hname, hmark, hafter⟩ : (∃ n : Ident, b.word = n.word) ∧ c.word = mark ∧
      ∀ d ∈ (after.map Bit.word).head?, d = .of .semicolon := by
    cases exported with
    | false => exact tailWords_marked hwords.symm herased
    | true =>
      cases before with
      | nil =>
        have hconst : c.word = .of .kwConst := Option.some.inj (congrArg (·[1]?) hwords)
        rw [hconst] at herased
        contradiction
      | cons a before => exact tailWords_marked (List.cons.inj hwords).2.symm herased
  refine ⟨hname, htouch c (by simp [hbits]) hmark, fun d hd => hafter d.word ?_⟩
  rw [List.head?_map]
  exact Option.mem_map_of_mem _ hd

/-! ## The code of lines -/

section

variable {l : Line} {ls : List Line} {last : List Char}

theorem Line.exists_code (l : Line) : ∃ further, l.code = l.lead ++ further := by
  obtain ⟨b, bs, hbits⟩ := List.exists_cons_of_ne_nil l.bits_ne_nil
  unfold Line.code Line.lead
  split
  · exact ⟨_, rfl⟩
  · rw [hbits, codeOf]
    exact ⟨_, List.append_assoc ..⟩

theorem Line.lead_ne_nil (hown : l.IsOwnLine) : l.lead ≠ [] := by
  obtain ⟨b, bs, hbits⟩ := List.exists_cons_of_ne_nil l.bits_ne_nil
  rw [Line.lead, hbits]
  exact List.ne_nil_of_mem (hown b (by rw [hbits]; rfl))

theorem Line.gap_lead {rest : List Char} (h : l.Fits rest) : Gap (fun _ => True) l.lead := by
  have hstands := h.stands
  rw [Line.lead]
  cases hbits : l.bits with
  | nil => exact .nil
  | cons b bs =>
    rw [hbits] at hstands
    cases hstands with
    | cons hgap => exact hgap

/-- The code of lines of their own begins as they do. -/
theorem head?_linesCode (hown : ∀ l ∈ ls.head?, l.IsOwnLine) :
    (linesCode ls last).head? = (linesText ls last).head? := by
  cases ls with
  | nil => rfl
  | cons l ls =>
    have hne := l.lead_ne_nil (hown l rfl)
    obtain ⟨_, hcode⟩ := l.exists_code
    obtain ⟨_, htext, -⟩ := l.exists_text
    rw [linesCode, linesText, hcode, htext, List.append_assoc, List.append_assoc,
      List.head?_append_of_ne_nil _ hne, List.head?_append_of_ne_nil _ hne]

theorem soft_linesText (h : Laid ls last) (hown : ∀ l ∈ ls.head?, l.IsOwnLine) :
    Soft (linesText ls last) := by
  cases h with
  | last h => exact soft_rendered h
  | @cons l ls last hfits =>
    have hne := l.lead_ne_nil (hown l rfl)
    obtain ⟨_, htext, -⟩ := l.exists_text
    rw [linesText, htext, List.append_assoc]
    have hsoft : Soft (l.lead ++ []) := soft_gap (l.gap_lead hfits) fun _ h => by contradiction
    intro c hc
    rw [List.head?_append_of_ne_nil _ hne] at hc
    exact hsoft c (by rwa [List.append_nil])

/-- What is left of a line is scanned as words that remain. -/
theorem scanned_line {behind out : List Char} (hfits : l.Fits behind)
    (hhead : out.head? = behind.head?) (hsoft : Soft behind) (h : Scanned Remains out) :
    Scanned Remains (l.code ++ out) := by
  unfold Line.code
  cases hstatement : l.statement with
  | typeAlias name type =>
    have hbreaks : ∀ n, Gap (fun _ => True) (List.replicate n '\n') := by
      intro n
      induction n with
      | zero => exact .nil
      | succ n ih => exact .blank rfl ih
    exact h.prepend ((l.gap_lead hfits).append (hbreaks _))
  | constant exported name value =>
    rw [Line.Fits, hstatement] at hfits
    have hkinds : ∀ b ∈ l.bits, isErased b.word = false → Remains b.word.kind := by
      intro b hb hkept
      rcases l.word_cases hstatement hb with hexport | hmark | hconst | hquiet
      · rw [hexport] at hkept
        contradiction
      · rw [hmark] at hkept
        contradiction
      · rw [hconst]
        decide
      · exact remains_of_quiet hquiet
    have hmarked := l.marked hstatement hfits.2
    simp only [List.append_assoc]
    cases exported with
    | false =>
      have hsoft' : Soft out := fun c hc => hsoft c (hhead ▸ hc)
      exact scanned_codeOf hfits.1 hkinds hmarked (fun s hs c hc => hs c (hhead ▸ hc)) hsoft' h
    | true =>
      have hspace : ∀ c ∈ (assignment name ++ out).head?, c = ' ' := by
        intro c hc
        simpa [assignment, Emit.assignments, eq_comm] using hc
      exact scanned_codeOf hfits.1 hkinds hmarked
        (fun s _ c hc => s.goesOnWith_of_isBlank c (hspace c hc ▸ rfl))
        (fun c hc => hspace c hc ▸ by decide) (scanned_assignment name h)

/-- **The code of lines is scanned as words that remain.** -/
theorem scanned_linesCode (h : Laid ls last) : Scanned Remains (linesCode ls last) := by
  induction h with
  | last h => exact .last h
  | @cons l ls last hfits hown hrest ih =>
    exact scanned_line hfits (head?_linesCode hown) (soft_linesText hrest hown) ih

end

/-! ## Recognition -/

/-- How many tokens lines have. -/
def tokenCount (ls : List Line) : Nat := (ls.flatMap Line.words).length

/-- The tokens of the first lines stand before those of the others. -/
theorem Laid.exists_front {before ls : List Line} {last : List Char} (h : Laid (before ++ ls) last)
    {st : ScanState} (hst : .substitution ∉ st.openings) (pos : Nat) (lineBefore : Bool) :
    ∃ (front : TokenStream) (pos' : Nat) (lineBefore' : Bool) (st' : ScanState),
      front.length = tokenCount before ∧ .substitution ∉ st'.openings ∧
      (Scan.layOut pos lineBefore (pieces st (linesText (before ++ ls) last))).tokens =
        front ++ (Scan.layOut pos' lineBefore' (pieces st' (linesText ls last))).tokens ∧
      Laid ls last := by
  induction before generalizing st pos lineBefore with
  | nil => exact ⟨[], pos, lineBefore, st, rfl, hst, rfl, h⟩
  | cons l before ih =>
    rw [List.cons_append] at h
    cases h with
    | cons hfits hown hrest =>
      obtain ⟨st₁, hst₁, htokens⟩ := hfits.stands.exists_tokens hst pos lineBefore
      obtain ⟨front, pos', lineBefore', st', hlength, hst', htokens', hlaid⟩ :=
        ih hrest hst₁ (pos + byteLength (textOf l.bits)) (lineBefore && l.bits.isEmpty)
      refine ⟨tokensOf pos lineBefore l.bits ++ front, pos', lineBefore', st', ?_, hst', ?_, hlaid⟩
      · rw [List.length_append, length_tokensOf, hlength, length_bits]
        simp [tokenCount]
      · rw [List.cons_append, linesText, Line.text, htokens, htokens', List.append_assoc]

/-- Behind another line a line begins a statement just if the end of that line shows. -/
theorem startsStatement_line {before after : List Line} {l l' : Line} {last : List Char}
    (h : Laid (before ++ l :: l' :: after) last) :
    let ts : TokenStream :=
      (Scan.ofText (String.ofList (linesText (before ++ l :: l' :: after) last))).tokens
    ts.startsStatement (tokenCount (before ++ [l])) = l.isSettled ∧
      some (ts.kind (tokenCount (before ++ [l]))) = l'.words.head?.map Word.kind := by
  obtain ⟨front, pos, lineBefore, st, hlength, hst, htokens, hlaid⟩ :=
    @Laid.exists_front before (l :: l' :: after) last h .initial (by decide) 0 true
  cases hlaid with
  | cons hfits hown hrest =>
    cases hrest with
    | cons hfits' hown' hrest' =>
      obtain ⟨st₁, hst₁, htokens₁⟩ := hfits.stands.exists_tokens hst pos lineBefore
      obtain ⟨st₂, hst₂, htokens₂⟩ := hfits'.stands.exists_tokens hst₁
        (pos + byteLength (textOf l.bits)) (lineBefore && l.bits.isEmpty)
      obtain ⟨t, further, hfirst, hline, hhead⟩ := exists_first l' (hown l' rfl)
        (pos + byteLength (textOf l.bits)) (lineBefore && l.bits.isEmpty)
      have hcount : tokenCount (before ++ [l]) = front.length + l.bits.length := by
        rw [hlength, length_bits]
        simp [tokenCount]
      rw [linesText, Line.text, htokens₁, linesText, Line.text, htokens₂, hfirst,
        List.cons_append] at htokens
      simp only [Scan.ofText, String.toList_ofList]
      rw [htokens, hcount, ← hhead]
      refine ⟨startsStatement_behind l front pos lineBefore hline _, congrArg some ?_⟩
      rw [TokenStream.kind, List.getElem?_append_right (by omega), Nat.add_sub_cancel_left,
        List.getElem?_append_right (by rw [length_tokensOf]), length_tokensOf, Nat.sub_self]
      rfl

/-- **A statement on a line of its own is taken for one just if the end of the one before it shows.**
If all ends show then no word `export` or `type` is left in the code without ES modules. -/
theorem statements_recognised {module : ModuleKind} (target : ScriptTarget)
    (hmodule : module.isEsModule = false) {ls : List Line} {last : List Char} (h : Laid ls last) :
    let text := linesText ls last
    let ts : TokenStream := (Scan.ofText (String.ofList text)).tokens
    let code := Emit.program (Goal.of module target) ts text
    (∀ before l l' after, ls = before ++ l :: l' :: after →
      ts.startsStatement (tokenCount (before ++ [l])) = l.isSettled ∧
      some (ts.kind (tokenCount (before ++ [l]))) = l'.words.head?.map Word.kind) ∧
    (Settled ls → ∀ t ∈ (Scan.ofText (String.ofList code)).tokens,
      t.kind ≠ .kwExport ∧ t.kind ≠ .kwType) := by
  intro text ts code
  refine ⟨fun before l l' after hls => ?_, fun hsettled t ht => ?_⟩
  · subst hls
    exact startsStatement_line h
  · have hcode : code = (if ts.isModule then Emit.moduleMarker.toList else []) ++ linesCode ls last :=
      program_settledLines (by simp [Goal.of, hmodule]) h hsettled
    have hscanned : Scanned Remains code := by
      rw [hcode]
      split
      · exact scanned_marker (scanned_linesCode h)
      · exact scanned_linesCode h
    rw [Scan.ofText, String.toList_ofList] at ht
    rcases hscanned.kind_of_mem (by decide) ht with heof | hremains
    · rw [heof]
      decide
    · exact hremains

/-! ## Lines with spaces -/

/-- A statement behind a line break, with a space between its words. -/
def spacedLine (s : Statement) (semicolon : Bool) : Line where
  statement := s
  semicolon := semicolon
  bits := match s.words ++ if semicolon then [.of .semicolon] else [] with
    | [] => []
    | w :: ws => ⟨['\n'], w⟩ :: ws.map (⟨[' '], ·⟩)
  words_bits := by
    split
    · exact ‹_ = []›.symm
    · rename_i w ws hwords
      rw [hwords, List.map_cons, List.map_map]
      exact congrArg (w :: ·) (List.map_id ws)
  oneLine := by
    split
    · exact fun _ h => by contradiction
    · intro b hb
      obtain ⟨w, -, rfl⟩ := List.mem_map.mp hb
      exact show '\n' ∉ [' '] by decide

theorem gap_spacedLine (s : Statement) (semicolon : Bool) :
    ∀ b ∈ (spacedLine s semicolon).bits, b.gap = ['\n'] ∨ b.gap = [' '] := by
  intro b hb
  simp only [spacedLine] at hb
  split at hb
  · contradiction
  · rcases List.mem_cons.mp hb with rfl | hb
    · exact .inl rfl
    · obtain ⟨w, -, rfl⟩ := List.mem_map.mp hb
      exact .inr rfl

theorem isOwnLine_spacedLine (s : Statement) (semicolon : Bool) :
    (spacedLine s semicolon).IsOwnLine := by
  intro b hb
  simp only [spacedLine] at hb
  split at hb
  · contradiction
  · obtain rfl := Option.mem_some.mp hb
    exact List.mem_singleton_self _

/-- Words behind blanks stand as they are written. -/
theorem firm_of_blank {bs : List Bit} (h : ∀ b ∈ bs, b.gap = ['\n'] ∨ b.gap = [' '])
    {rest : List Char} (hrest : Apart rest) : Firm bs rest := by
  induction bs with
  | nil => exact .nil
  | cons b bs ih =>
    obtain ⟨hb, hbs⟩ := List.forall_mem_cons.mp h
    have hgap : Gap (fun _ => True) b.gap := by
      rcases hb with h | h <;> rw [h] <;> exact .blank rfl .nil
    refine .cons hgap (.ofWord b.word) rfl (fun c hc => ?_) (ih hbs)
    cases bs with
    | nil => simp [Solid.ofWord, hrest c hc]
    | cons d bs =>
      rcases hbs d (List.mem_cons_self ..) with h | h <;> rw [textOf, h] at hc <;>
        exact Option.mem_some.mp hc ▸ rfl

/-- Statements with spaces between their words, in which nothing is asserted, stand in a text. -/
theorem laid_spacedLines {ss : List (Statement × Bool)}
    (hmark : ∀ s ∈ ss, ∀ b ∈ (spacedLine s.1 s.2).bits, b.word ≠ mark) :
    Laid (ss.map fun s => spacedLine s.1 s.2) ['\n'] := by
  induction ss with
  | nil => exact .last (.gap (.blank rfl .nil))
  | cons s ss ih =>
    obtain ⟨hs, hss⟩ := List.forall_mem_cons.mp hmark
    have hown : ∀ l ∈ (ss.map fun s => spacedLine s.1 s.2).head?, l.IsOwnLine := by
      intro l hl
      obtain ⟨s, -, rfl⟩ := List.mem_map.mp (List.mem_of_mem_head? hl)
      exact isOwnLine_spacedLine s.1 s.2
    have hblank : Apart (linesText (ss.map fun s => spacedLine s.1 s.2) ['\n']) := by
      cases ss with
      | nil => exact apart_cons rfl
      | cons s ss =>
        obtain ⟨b, bs, hbits⟩ := List.exists_cons_of_ne_nil (spacedLine s.1 s.2).bits_ne_nil
        have hgap := gap_spacedLine s.1 s.2 b (by rw [hbits]; exact List.mem_cons_self ..)
        rw [List.map_cons, linesText, Line.text, hbits, textOf]
        rcases hgap with h | h <;> rw [h] <;> exact apart_cons rfl
    have hfirm := firm_of_blank (gap_spacedLine s.1 s.2) hblank
    refine .cons ?_ hown (ih hss)
    unfold Line.Fits
    split
    · exact hfirm.stands
    · exact ⟨hfirm, fun b hb h => absurd h (hs b hb)⟩

/-- The plain name that a text is. -/
def Ident.ofText (text : List Char) (hhead : text.head?.any isNameStart = true := by decide)
    (htail : text.tail.all isNamePart = true := by decide)
    (hkind : TokenKind.ofWord (String.ofList text) = .identifier := by decide) : Ident :=
  ⟨⟨text, hhead, htail⟩, hkind⟩

/-- An instantiation and a default member with semicolons, and constants without. -/
def settledStatements : List (Statement × Bool) :=
  [(.typeAlias (.ofText "Pair".toList) (.operand (.applied ⟨.ofText "Both".toList, []⟩
      (.one (.operand (.name ⟨.ofText "Item".toList, []⟩))))), true),
    (.constant true (.ofText "left".toList) (.name (.ofText "right".toList)), false),
    (.constant false (.ofText "main".toList) (.default (.ofText "right".toList)), true),
    (.constant true (.ofText "other".toList) (.name (.ofText "main".toList)), false)]

set_option maxRecDepth 4096 in
theorem statements_recognised_settledStatements :
    let ls := settledStatements.map fun s => spacedLine s.1 s.2
    let text := linesText ls ['\n']
    let ts : TokenStream := (Scan.ofText (String.ofList text)).tokens
    let code := Emit.program (Goal.of .commonJs .es5) ts text
    text = ("\ntype Pair = Both < Item > ;\nexport const left = right\n" ++
      "const main = right . default ;\nexport const other = main\n").toList ∧
    Laid ls ['\n'] ∧ Settled ls ∧ ts.startsStatement 8 = true ∧ ts.startsStatement 13 = true ∧
    ∀ t ∈ (Scan.ofText (String.ofList code)).tokens, t.kind ≠ .kwExport ∧ t.kind ≠ .kwType := by
  intro ls text ts code
  have hkinds : ∀ s ∈ settledStatements, ∀ b ∈ (spacedLine s.1 s.2).bits, b.word.kind ≠ .bang := by
    decide +kernel
  have hlaid : Laid ls ['\n'] :=
    laid_spacedLines fun s hs b hb h => hkinds s hs b hb (congrArg Word.kind h)
  have hsettled : Settled ls :=
    ⟨⟨rfl, by decide +kernel⟩, ⟨rfl, by decide +kernel⟩, ⟨rfl, by decide +kernel⟩, trivial⟩
  obtain ⟨hstarts, hcode⟩ := statements_recognised .es5 (rfl : ModuleKind.commonJs.isEsModule = false) hlaid
  refine ⟨by decide +kernel, hlaid, hsettled, ?_, ?_, hcode hsettled⟩
  · exact (hstarts [] _ _ _ rfl).1
  · exact (hstarts [_] _ _ _ rfl).1

set_option maxRecDepth 4096 in
/-- **Behind a default member on a line without a semicolon the word `export` is left.** -/
theorem export_left_behind_default :
    let text := "const a = m.default\nexport const b = 1\n"
    let ts : TokenStream := (Scan.ofText text).tokens
    let code := Emit.program (.of .commonJs .es5) ts text.toList
    ts.kind 6 = .kwExport ∧ ts.startsStatement 6 = false ∧
    code = Emit.moduleMarker.toList ++ text.toList ∧
    ∃ t ∈ (Scan.ofText (String.ofList code)).tokens, t.kind = .kwExport := by
  intro text ts code
  have hcode : code = Emit.moduleMarker.toList ++ text.toList :=
    (Emit.program_of_sorted (by decide +kernel) _).trans (by decide +kernel)
  exact ⟨by decide +kernel, by decide +kernel, hcode, by rw [hcode]; decide +kernel⟩

end TypeScriptEngine.Seam
