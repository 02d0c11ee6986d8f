import TypeScriptEngine.Token.Basic

/-!
# Token streams

A `TokenStream` is a list of tokens, as a rule one that ends with the token for the end of the text.
Past its end every look-up answers as if that last token went on for ever, so that looking ahead
needs no test for the end.

Analyses of the syntax are functions on the stream that remains from some token on; they return how
many tokens they cover.  The functions on an index `i` apply them to the stream from `i`.
-/

namespace TypeScriptEngine

/-- The tokens of a text, or those from some token on. -/
abbrev TokenStream := List Token

namespace TokenStream

/-- The kind of the first token. -/
def headKind : TokenStream → TokenKind
  | [] => .eof
  | t :: _ => t.kind

/-- Whether a line break comes before the first token. -/
def headLineBefore : TokenStream → Bool
  | [] => true
  | t :: _ => t.lineBefore

/-- The kind of token `i`. -/
def kind (ts : TokenStream) (i : Nat) : TokenKind := (ts[i]?).elim .eof Token.kind

/-- The value of token `i`. -/
def value (ts : TokenStream) (i : Nat) : String := (ts[i]?).elim "" Token.value

/-- The source text of token `i`. -/
def source (ts : TokenStream) (i : Nat) : String := (ts[i]?).elim "" Token.source

/-- Whether a line break comes before token `i`. -/
def lineBefore (ts : TokenStream) (i : Nat) : Bool := (ts[i]?).elim true Token.lineBefore

/-- Whether token `i` is a certain identifier. -/
def isWord (ts : TokenStream) (i : Nat) (word : String) : Bool :=
  ts.kind i == .identifier && ts.value i == word

/-- The index of the last token, the one for the end of the text. -/
def last (ts : TokenStream) : Nat := ts.length - 1

/-- The length of the text in bytes. -/
def textLength (ts : TokenStream) : Nat := (ts.getLast?).elim 0 fun t => t.span.stop

/-- Where token `i` starts. -/
def startOf (ts : TokenStream) (i : Nat) : Nat := (ts[i]?).elim ts.textLength fun t => t.span.start

/-- Where token `i` stops. -/
def stopOf (ts : TokenStream) (i : Nat) : Nat := (ts[i]?).elim ts.textLength fun t => t.span.stop

/-- Whether token `i` follows a dot, so that it is the name of a member. -/
def followsDot (ts : TokenStream) : Nat → Bool
  | 0 => false
  | i + 1 => (ts.kind i).isDot

theorem kind_eq_headKind_drop (ts : TokenStream) (i : Nat) :
    ts.kind i = headKind (ts.drop i) := by
  simp only [kind]
  cases h : ts.drop i with
  | nil => simp [List.getElem?_eq_none (List.drop_eq_nil_iff.1 h), headKind]
  | cons t rest =>
    have := congrArg (·[0]?) h
    simp only [List.getElem?_drop, Nat.add_zero, List.getElem?_cons_zero] at this
    simp [this, headKind]

theorem lineBefore_eq_headLineBefore_drop (ts : TokenStream) (i : Nat) :
    ts.lineBefore i = headLineBefore (ts.drop i) := by
  rw [lineBefore, ← List.head?_drop]
  cases ts.drop i <;> rfl

theorem drop_succ_of_drop_eq_cons {ts rest : TokenStream} {t : Token} {i : Nat}
    (h : ts.drop i = t :: rest) : ts.drop (i + 1) = rest := by
  rw [← List.drop_drop, h, List.drop_one, List.tail_cons]

/-- What is known of a stream that goes on from an index with a token. -/
theorem of_drop_eq_cons {ts rest : TokenStream} {t : Token} {i : Nat} (h : ts.drop i = t :: rest) :
    i < ts.length ∧ ts.kind i = t.kind ∧ ts.drop (i + 1) = rest := by
  refine ⟨?_, ?_, drop_succ_of_drop_eq_cons h⟩
  · have hlength := congrArg List.length h
    rw [List.length_drop, List.length_cons] at hlength
    omega
  · rw [kind_eq_headKind_drop, h, headKind]

end TokenStream

end TypeScriptEngine
