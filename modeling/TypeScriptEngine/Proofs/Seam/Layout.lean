import TypeScriptEngine.Proofs.CommonJs.Layout
import TypeScriptEngine.Proofs.Grammar.Module
import TypeScriptEngine.Proofs.Grammar.Type

/-! # Statements on lines of their own

Type aliases and declarations of constants as they stand in a text: each on its own line, ended by a
semicolon or by the line break alone, with any white space and comments between their words.  The
tokens of such a text are those of the statements, one after the other (`Stands.exists_tokens`).
-/

namespace TypeScriptEngine.Seam

open TypeScriptEngine.Text TokenStream ModuleSyntax Grammar

/-! ## Words in a text -/

/-- A word with what stands before it. -/
structure Bit where
  gap : List Char
  word : Word

def textOf : List Bit → List Char
  | [] => []
  | b :: bs => b.gap ++ (b.word.text ++ textOf bs)

@[simp] theorem textOf_nil : textOf [] = [] := rfl

theorem textOf_append (bs bs' : List Bit) : textOf (bs ++ bs') = textOf bs ++ textOf bs' := by
  induction bs with
  | nil => rfl
  | cons b bs ih => simp [textOf, ih]

/-- The tokens of words, when the text before them is `pos` bytes long. -/
def tokensOf (pos : Nat) (lineBefore : Bool) : List Bit → TokenStream
  | [] => []
  | b :: bs =>
    let start := pos + byteLength b.gap
    let stop := start + byteLength b.word.text
    b.word.token ⟨⟨start, stop⟩, lineBefore || b.gap.contains '\n'⟩ :: tokensOf stop false bs

/-- Each word is scanned as one token where it stands, and white space and comments are before it. -/
inductive Stands : List Bit → List Char → Prop where
  | nil {rest : List Char} : Stands [] rest
  | cons {b : Bit} {bs : List Bit} {rest : List Char} (hgap : Gap (fun _ => True) b.gap)
      (hscan : ∀ st : ScanState, .substitution ∉ st.openings →
        pieces st (b.word.text ++ (textOf bs ++ rest)) =
          b.word.piece :: pieces (st.after b.word.piece) (textOf bs ++ rest))
      (h : Stands bs rest) : Stands (b :: bs) rest

/-- **The tokens of words in a text** come before those of the text behind them. -/
theorem Stands.exists_tokens {bs : List Bit} {rest : List Char} (h : Stands bs rest)
    {st : ScanState} (hst : .substitution ∉ st.openings) (pos : Nat) (lineBefore : Bool) :
    ∃ st', .substitution ∉ st'.openings ∧
      (Scan.layOut pos lineBefore (pieces st (textOf bs ++ rest))).tokens =
        tokensOf pos lineBefore bs ++
          (Scan.layOut (pos + byteLength (textOf bs)) (lineBefore && bs.isEmpty)
            (pieces st' rest)).tokens := by
  induction h generalizing st pos lineBefore with
  | nil => exact ⟨st, hst, by simp [tokensOf]⟩
  | @cons b bs rest hgap hscan _ ih =>
    obtain ⟨st', hst', htokens⟩ := ih (b.word.not_mem_openings hst)
      (pos + byteLength b.gap + byteLength b.word.text) false
    obtain ⟨_, _, hmoved, _⟩ :=
      Scan.moves_gap hgap pos lineBefore st (b.word.text ++ (textOf bs ++ rest))
    refine ⟨st', hst', ?_⟩
    rw [textOf, List.append_assoc, List.append_assoc, hmoved, hscan st hst, Scan.layOut]
    simp only [Word.piece] at htokens ⊢
    rw [htokens]
    simp [tokensOf, Word.token, Word.value, Nat.add_assoc]

/-! ## Words among tokens -/

theorem length_tokensOf (bs : List Bit) (pos : Nat) (lineBefore : Bool) :
    (tokensOf pos lineBefore bs).length = bs.length := by
  induction bs generalizing pos lineBefore with
  | nil => rfl
  | cons b bs ih => simp [tokensOf, ih]

theorem tokensOf_append (bs bs' : List Bit) (pos : Nat) (lineBefore : Bool) :
    tokensOf pos lineBefore (bs ++ bs') = tokensOf pos lineBefore bs ++
      tokensOf (pos + byteLength (textOf bs)) (lineBefore && bs.isEmpty) bs' := by
  induction bs generalizing pos lineBefore with
  | nil => simp [tokensOf]
  | cons b bs ih => simp [tokensOf, textOf, ih, Nat.add_assoc]

/-- The token of a word among others. -/
theorem getElem?_tokensOf {bs before after : List Bit} {b : Bit} (h : bs = before ++ b :: after)
    (pos : Nat) (lineBefore : Bool) : (tokensOf pos lineBefore bs)[before.length]? =
      some (b.word.token ⟨⟨pos + byteLength (textOf before ++ b.gap),
        pos + byteLength (textOf before ++ b.gap) + byteLength b.word.text⟩,
        lineBefore && before.isEmpty || b.gap.contains '\n'⟩) := by
  rw [h, tokensOf_append, ← length_tokensOf before pos lineBefore,
    List.getElem?_append_right (Nat.le_refl _), Nat.sub_self, tokensOf, byteLength_append,
    ← Nat.add_assoc]
  rfl

/-- Words are a stream of tokens, which are on one line if no line break is before any of them. -/
theorem exists_stream (bs : List Bit) (pos k : Nat) (lineBefore : Bool) :
    ∃ place, tokensOf pos lineBefore bs = stream place k (bs.map Bit.word) ∧
      (lineBefore = false → (∀ b ∈ bs, '\n' ∉ b.gap) → ∀ j, (place j).lineBefore = false) := by
  induction bs generalizing pos k lineBefore with
  | nil => exact ⟨fun _ => ⟨⟨0, 0⟩, false⟩, rfl, fun _ _ _ => rfl⟩
  | cons b bs ih =>
    let start := pos + byteLength b.gap
    let stop := start + byteLength b.word.text
    obtain ⟨place, htokens, hflat⟩ := ih stop (k + 1) false
    refine ⟨placeFrom k ⟨⟨start, stop⟩, lineBefore || b.gap.contains '\n'⟩ place, ?_,
      fun hbefore hline j => ?_⟩
    · rw [List.map_cons, stream_placeFrom, ← htokens]
      rfl
    · obtain ⟨hgap, hbs⟩ := List.forall_mem_cons.mp hline
      unfold placeFrom
      split
      · simpa [hbefore] using hgap
      · exact hflat rfl hbs j

/-! ## Statements -/

/-- A plain name. -/
structure Ident where
  letters : Letters
  isIdentifier : TokenKind.ofWord (String.ofList letters.text) = .identifier

namespace Ident

def atom (n : Ident) : Atom := .word n.letters

def word (n : Ident) : Word := n.atom.toWord

def text (n : Ident) : String := String.ofList n.letters.text

theorem kind_word (n : Ident) : n.word.kind = .identifier := n.isIdentifier

theorem value_word (n : Ident) : n.word.value = n.text := by
  have hkind : n.word.kind = .identifier := n.kind_word
  rw [Word.value, hkind]
  rfl

end Ident

/-- The word `default`. -/
def defaultWord : Word := ⟨.kwDefault, "default".toList, spells_letters rfl (by decide) (by decide)⟩

/-- An exclamation mark. -/
def mark : Word := ⟨.bang, ['!'], spells_sign rfl (by decide)⟩

/-- The value of a constant. -/
inductive Value where
  | name (name : Ident)
  | literal (word : Word) (isLiteral : word.kind = .stringLiteral ∨ word.kind = .numberLiteral)
  /-- `M.default` -/
  | default (object : Ident)
  /-- `M!` -/
  | asserted (name : Ident)

inductive Statement where
  /-- `type N = T` -/
  | typeAlias (name : Ident) (type : TypeExpr)
  /-- `const N = V` or `export const N = V` -/
  | constant (exported : Bool) (name : Ident) (value : Value)

def Value.words : Value → List Word
  | name n => [n.word]
  | literal w _ => [w]
  | default object => [object.word, .of .dot, defaultWord]
  | asserted n => [n.word, mark]

/-- The words of a constant behind the word `const`. -/
def definition (name : Ident) (value : Value) : List Word := name.word :: .of .equals :: value.words

def Statement.words : Statement → List Word
  | typeAlias name type => Keyword.kwType.atom.toWord :: name.word :: .of .equals :: type.words
  | constant exported name value =>
    (if exported then [Keyword.kwExport.atom.toWord] else []) ++
      .of .kwConst :: definition name value

/-- A statement as it stands in a text, on one line: its words, and a semicolon if one ends it. -/
structure Line where
  statement : Statement
  semicolon : Bool
  bits : List Bit
  words_bits : bits.map Bit.word =
    statement.words ++ if semicolon then [.of .semicolon] else []
  oneLine : ∀ b ∈ bits.tail, '\n' ∉ b.gap

/-- A text that is scanned as one token, unless the character behind it goes on with it. -/
structure Solid where
  word : Word
  goesOnWith : Char → Bool
  goesOnWith_of_isBlank : ∀ c, isBlank c = true → goesOnWith c = false
  scans : ∀ st : ScanState, .substitution ∉ st.openings → ∀ rest,
    (∀ c ∈ rest.head?, goesOnWith c = false) →
      pieces st (word.text ++ rest) = word.piece :: pieces (st.after word.piece) rest

def Solid.EndsBefore (s : Solid) (rest : List Char) : Prop := ∀ c ∈ rest.head?, s.goesOnWith c = false

/-- Atoms are such texts. -/
def Solid.ofAtom (a : Atom) : Solid where
  word := a.toWord
  goesOnWith := a.goesOnWith
  goesOnWith_of_isBlank _ := a.goesOnWith_of_isBlank
  scans _ hst _ hrest := a.pieces_append hst hrest

/-- Words in a text, each of which ends where the text does not go on with it. -/
inductive Firm : List Bit → List Char → Prop where
  | nil {rest : List Char} : Firm [] rest
  | cons {b : Bit} {bs : List Bit} {rest : List Char} (hgap : Gap (fun _ => True) b.gap) (s : Solid)
      (hword : s.word = b.word) (hends : s.EndsBefore (textOf bs ++ rest)) (h : Firm bs rest) :
      Firm (b :: bs) rest

theorem Firm.stands {bs : List Bit} {rest : List Char} (h : Firm bs rest) : Stands bs rest := by
  induction h with
  | nil => exact .nil
  | cons hgap s hword hends _ ih =>
    exact .cons hgap (fun st hst => hword ▸ s.scans st hst _ hends) ih

namespace Line

/-- The text of a line, with what stands before it. -/
def text (l : Line) : List Char := textOf l.bits

/-- The statement of a line stands before `rest` as it is written.  The mark of an assertion stands
directly behind the name. -/
def Fits (l : Line) (rest : List Char) : Prop := match l.statement with
  | .typeAlias .. => Stands l.bits rest
  | .constant .. => Firm l.bits rest ∧ ∀ b ∈ l.bits, b.word = mark → b.gap = []

theorem Fits.stands {l : Line} {rest : List Char} (h : l.Fits rest) : Stands l.bits rest := by
  unfold Fits at h
  split at h
  · exact h
  · exact h.1.stands

/-- A line break comes before the statement. -/
def IsOwnLine (l : Line) : Prop := ∀ b ∈ l.bits.head?, '\n' ∈ b.gap

end Line

/-- The text of lines, with what stands behind the last one. -/
def linesText : List Line → List Char → List Char
  | [], last => last
  | l :: ls, last => l.text ++ linesText ls last

/-- Statements stand in a text, each on a line of its own. -/
inductive Laid : List Line → List Char → Prop where
  | last {last : List Char} (h : Rendered (fun _ => True) last []) : Laid [] last
  | cons {l : Line} {ls : List Line} {last : List Char} (hfits : l.Fits (linesText ls last))
      (hown : ∀ l' ∈ ls.head?, l'.IsOwnLine) (hrest : Laid ls last) : Laid (l :: ls) last

end TypeScriptEngine.Seam
