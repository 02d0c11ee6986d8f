import TypeScriptEngine.Proofs.Emit.Assignment
import TypeScriptEngine.Proofs.Token.Balance

/-! # Exported names

Which names of a declaration of variables are exported: those of the declarators that bind a simple
name, in their order.  Binding patterns are passed over, and so is everything in annotations and
initialisers (`ofDeclarators_declarators`).  An angle bracket does no harm as long as it is not read as
the beginning of type arguments that reach over the next comma.
-/

namespace TypeScriptEngine.Declared

open TokenStream

/-! ## Declarations of variables -/

/-- What a declarator binds. -/
inductive Target where
  | name (token : Token) (isName : token.kind.isName = true)
  /-- A pattern between braces or brackets. -/
  | pattern (opening closing : Token) (inner : TokenStream)
      (isPattern : opening.kind = .lbrace ∨ opening.kind = .lbracket)
      (pair : opening.kind.closer? = some closing.kind) (balanced : Bracketed inner)

/-- A target, and behind it an annotation and an initialiser, which may be missing. -/
structure Declarator where
  target : Target
  further : TokenStream

/-- The word `const`, `let` or `var`, one or several declarators with commas between them, and a
semicolon, which may be missing. -/
structure Declaration where
  word : Token
  declares : word.kind.isVariableWord = true
  first : Declarator
  /-- The other declarators, each with the comma before it. -/
  others : List (Token × Declarator)
  commas : ∀ other ∈ others, other.1.kind = .comma
  semicolon? : Option Token
  isSemicolon : ∀ t ∈ semicolon?, t.kind = .semicolon

def Target.tokens : Target → TokenStream
  | name token _ => [token]
  | pattern opening closing inner _ _ _ => opening :: (inner ++ [closing])

/-- The name that a target is. -/
def Target.name? : Target → Option String
  | name token _ => some token.value
  | pattern .. => none

def Declarator.tokens (d : Declarator) : TokenStream := d.target.tokens ++ d.further

def listTokens : Declarator → List (Token × Declarator) → TokenStream
  | d, [] => d.tokens
  | d, (comma, d') :: others => d.tokens ++ comma :: listTokens d' others

/-- The names that declarators bind as they are, and not in a pattern. -/
def simpleNames (d : Declarator) (others : List (Token × Declarator)) : List String :=
  (d :: others.map Prod.snd).filterMap (·.target.name?)

namespace Declaration

def tokens (s : Declaration) : TokenStream :=
  s.word :: (listTokens s.first s.others ++ s.semicolon?.toList)

def names (s : Declaration) : List String := simpleNames s.first s.others

end Declaration

/-! ## Parts of a declarator -/

/-- Tokens of an annotation or initialiser, before those in `rest`: brackets are balanced, and a comma
stands only inside brackets or type arguments.  Any other angle bracket is not read as the beginning
of type arguments. -/
inductive Part (rest : TokenStream) : TokenStream → Prop where
  | nil : Part rest []
  | plain {t : Token} {ts : TokenStream} (hopen : t.kind.isOpener = false)
      (hcomma : t.kind ≠ .comma) (hlt : t.kind ≠ .lt) (h : Part rest ts) : Part rest (t :: ts)
  | group {o c : Token} {inner ts : TokenStream} (hpair : o.kind.closer? = some c.kind)
      (hinner : Bracketed inner) (h : Part rest ts) : Part rest (o :: (inner ++ c :: ts))
  | arguments {l g : Token} {inner ts : TokenStream} (hl : l.kind = .lt) (hg : g.kind = .gt)
      (hinner : AngleBracketed inner) (h : Part rest ts) : Part rest (l :: (inner ++ g :: ts))
  | less {l : Token} {ts : TokenStream} (hl : l.kind = .lt)
      (hread : angleSpan? (l :: (ts ++ rest)) = none) (h : Part rest ts) : Part rest (l :: ts)

/-- What stands behind the targets of declarators are such parts. -/
def AllParts (rest : TokenStream) : Declarator → List (Token × Declarator) → Prop
  | d, [] => Part rest d.further
  | d, (comma, d') :: others =>
    Part (comma :: (listTokens d' others ++ rest)) d.further ∧ AllParts rest d' others

/-! ## Reading names -/

section

variable {expectName : Bool} {t : Token} {ts rest : TokenStream}

theorem ofDeclarators_other (hopen : t.kind.isOpener = false) (hlt : t.kind ≠ .lt)
    (hcomma : t.kind ≠ .comma) (n : Nat) (rest : TokenStream) :
    Binding.ofDeclarators false (n + 1) (t :: rest) = Binding.ofDeclarators false n rest := by
  rw [Binding.ofDeclarators, if_neg (by simp [hopen]), if_neg hlt, if_neg hcomma, if_neg (by simp)]

theorem ofDeclarators_comma (hkind : t.kind = .comma) (n : Nat) (rest : TokenStream) :
    Binding.ofDeclarators expectName (n + 1) (t :: rest) = Binding.ofDeclarators true n rest := by
  rw [Binding.ofDeclarators, hkind, if_neg (by decide), if_neg (by decide), if_pos rfl]

theorem ofDeclarators_name (hname : t.kind.isName = true) (n : Nat) (rest : TokenStream) :
    Binding.ofDeclarators true (n + 1) (t :: rest) =
      Binding.ofToken t :: Binding.ofDeclarators false n rest := by
  have hopen : t.kind.isOpener = false := by
    revert hname
    cases t.kind <;> simp [TokenKind.isName, TokenKind.isContextual, TokenKind.isOpener]
  have hlt : t.kind ≠ .lt := fun h => by simp [h, TokenKind.isName, TokenKind.isContextual] at hname
  have hcomma : t.kind ≠ .comma := fun h => by
    simp [h, TokenKind.isName, TokenKind.isContextual] at hname
  rw [Binding.ofDeclarators, if_neg (by simp [hopen]), if_neg hlt, if_neg hcomma,
    if_pos (by simp [hname])]

/-- A pair of brackets is passed over, with what it holds. -/
theorem ofDeclarators_group {o c : Token} {inner : TokenStream} (hpair : o.kind.closer? = some c.kind)
    (hinner : Bracketed inner) (n : Nat) (rest : TokenStream) :
    Binding.ofDeclarators expectName (inner.length + 2 + n) (o :: (inner ++ c :: rest)) =
      Binding.ofDeclarators false n rest := by
  have hcount : inner.length + 2 + n = inner.length + 1 + n + 1 := by omega
  rw [hcount, Binding.ofDeclarators, if_pos (TokenKind.isOpener_of_closer? hpair),
    bracketSpan?_bracketed hpair hinner]
  simp [← List.drop_drop]

/-- So are type arguments. -/
theorem ofDeclarators_arguments {l g : Token} {inner : TokenStream} (hl : l.kind = .lt)
    (hg : g.kind = .gt) (hinner : AngleBracketed inner) (n : Nat) (rest : TokenStream) :
    Binding.ofDeclarators expectName (inner.length + 2 + n) (l :: (inner ++ g :: rest)) =
      Binding.ofDeclarators false n rest := by
  have hcount : inner.length + 2 + n = inner.length + 1 + n + 1 := by omega
  rw [hcount, Binding.ofDeclarators, if_neg (by rw [hl]; decide), if_pos hl,
    angleSpan?_angleBracketed hl hg hinner]
  simp [← List.drop_drop]

theorem ofDeclarators_less (hl : t.kind = .lt) (hread : angleSpan? (t :: rest) = none) (n : Nat) :
    Binding.ofDeclarators expectName (n + 1) (t :: rest) = Binding.ofDeclarators false n rest := by
  rw [Binding.ofDeclarators, if_neg (by rw [hl]; decide), if_pos hl, hread]
  simp

/-- **What a part of a declarator holds is not taken for a name.** -/
theorem ofDeclarators_part (h : Part rest ts) (n : Nat) :
    Binding.ofDeclarators false (ts.length + n) (ts ++ rest) = Binding.ofDeclarators false n rest := by
  induction h with
  | nil => simp
  | plain hopen hcomma hlt _ ih =>
    rw [List.length_cons, Nat.add_right_comm, List.cons_append, ofDeclarators_other hopen hlt hcomma,
      ih]
  | @group o c inner ts hpair hinner _ ih =>
    have hcount : (o :: (inner ++ c :: ts)).length + n = inner.length + 2 + (ts.length + n) := by
      simp
      omega
    rw [hcount, List.cons_append, List.append_assoc, List.cons_append,
      ofDeclarators_group hpair hinner, ih]
  | @arguments l g inner ts hl hg hinner _ ih =>
    have hcount : (l :: (inner ++ g :: ts)).length + n = inner.length + 2 + (ts.length + n) := by
      simp
      omega
    rw [hcount, List.cons_append, List.append_assoc, List.cons_append,
      ofDeclarators_arguments hl hg hinner, ih]
  | less hl hread _ ih =>
    rw [List.length_cons, Nat.add_right_comm, List.cons_append, ofDeclarators_less hl hread, ih]

/-- A target is taken for the name that it is. -/
theorem ofDeclarators_target (target : Target) (n : Nat) (rest : TokenStream) :
    (Binding.ofDeclarators true (target.tokens.length + n) (target.tokens ++ rest)).map
        Binding.name =
      target.name?.toList ++ (Binding.ofDeclarators false n rest).map Binding.name := by
  cases target with
  | name token isName =>
    rw [Target.tokens, List.length_singleton, Nat.add_comm, List.singleton_append,
      ofDeclarators_name isName]
    rfl
  | pattern o c inner _ pair balanced =>
    have hcount : (o :: (inner ++ [c])).length = inner.length + 2 := by simp
    rw [Target.tokens, hcount, List.cons_append, List.append_assoc, List.singleton_append,
      ofDeclarators_group pair balanced, Target.name?, Option.toList_none, List.nil_append]

theorem ofDeclarators_declarator (d : Declarator) (h : Part rest d.further) (n : Nat) :
    (Binding.ofDeclarators true (d.tokens.length + n) (d.tokens ++ rest)).map Binding.name =
      d.target.name?.toList ++ (Binding.ofDeclarators false n rest).map Binding.name := by
  rw [Declarator.tokens, List.length_append, List.append_assoc, Nat.add_assoc, ofDeclarators_target,
    ofDeclarators_part h]

/-- **The names of declarators are those that they bind as they are.** -/
theorem ofDeclarators_declarators (d : Declarator) (others : List (Token × Declarator))
    (hcommas : ∀ other ∈ others, other.1.kind = .comma) (hparts : AllParts rest d others) (n : Nat) :
    (Binding.ofDeclarators true ((listTokens d others).length + n) (listTokens d others ++ rest)).map
        Binding.name =
      simpleNames d others ++ (Binding.ofDeclarators false n rest).map Binding.name := by
  induction others generalizing d with
  | nil =>
    rw [listTokens, ofDeclarators_declarator d hparts]
    cases hname : d.target.name? <;> simp [simpleNames, hname]
  | cons other others ih =>
    obtain ⟨comma, d'⟩ := other
    have hcomma : comma.kind = .comma := hcommas _ (List.mem_cons_self ..)
    have hcount : (listTokens d ((comma, d') :: others)).length + n =
        d.tokens.length + ((listTokens d' others).length + n + 1) := by
      rw [listTokens, List.length_append, List.length_cons]
      omega
    rw [hcount, listTokens, List.append_assoc, List.cons_append, ofDeclarators_declarator d hparts.1,
      ofDeclarators_comma hcomma, ih d' (fun o ho => hcommas o (.tail _ ho)) hparts.2]
    cases hname : d.target.name? <;> simp [simpleNames, hname]

/-- **A declaration exports the names that it binds as they are.** -/
theorem exportedNames_declaration {i : Nat} (s : Declaration) (h : ts.drop (i + 1) = s.tokens ++ rest)
    (hparts : AllParts (s.semicolon?.toList ++ rest) s.first s.others)
    (hend : ts.pastStatement (i + 1) = i + 1 + s.tokens.length) :
    Emit.exportedNames ts i = s.names := by
  have hlength : statementLength 0 (ts.drop (i + 1)) = s.tokens.length :=
    Nat.add_left_cancel (pastStatement.eq_1 ts (i + 1) ▸ hend)
  have hsemicolon : Binding.ofDeclarators false s.semicolon?.toList.length
      (s.semicolon?.toList ++ rest) = [] := by
    cases ht : s.semicolon? with
    | none => simp [Binding.ofDeclarators]
    | some t =>
      have hkind := s.isSemicolon t ht
      rw [Option.toList_some, List.singleton_append, List.length_singleton,
        ofDeclarators_other (by rw [hkind]; rfl) (by simp [hkind]) (by simp [hkind]),
        Binding.ofDeclarators]
  rw [Emit.exportedNames, Binding.ofStatement, hlength, h, Declaration.tokens, List.length_cons,
    Nat.add_sub_cancel, List.cons_append, List.drop_one, List.tail_cons, List.length_append,
    List.append_assoc, ofDeclarators_declarators s.first s.others s.commas hparts, hsemicolon,
    List.map_nil, List.append_nil, Declaration.names]

end

/-! ## Declarations that are exported -/

section

open Emit

variable {goal : Goal} {i : Nat}

end

end TypeScriptEngine.Declared
