import TypeScriptEngine.Proofs.Emit.Pass
import TypeScriptEngine.Proofs.Grammar.Erasure

/-! # Programs without types

Nothing is proposed for a program that has no types, wherever its words stand (`silent_erase`).  So
one pass is enough for a typed program, while in general passes only settle in the end
(`passes_settle`).
-/

namespace TypeScriptEngine.Grammar

open TokenStream Emit

variable {place : Nat → TokenPlace} {ts : TokenStream} {k stop : Nat} {goal : Goal}

/-! ## Tokens without types -/

/-- The tokens of statements without types, but for the word that a function begins with. -/
def isPart : TokenKind → Bool
  | .kwVar | .kwLet | .kwConst | .kwReturn | .identifier | .numberLiteral | .equals | .comma
  | .semicolon | .lparen | .rparen | .lbrace | .rbrace => true
  | _ => false

/-- The tokens of programs without types. -/
def isUntyped (k : TokenKind) : Bool := isPart k || k == .kwFunction || k == .eof

/-- A stream without type syntax. -/
def Untyped (ts : TokenStream) : Prop := ∀ i, isUntyped (ts.kind i) = true

namespace Untyped

theorem ne (h : Untyped ts) {kind : TokenKind} (hkind : isUntyped kind = false) (i : Nat) :
    ts.kind i ≠ kind := by
  rintro rfl
  exact Bool.false_ne_true (hkind ▸ h i)

theorem mark_eq (h : Untyped ts) {kind : TokenKind} (hkind : isUntyped kind = false) (i : Nat) :
    mark ts kind i = ([], i) :=
  mark_of_ne (h.ne hkind i)

theorem annotationAt_eq (h : Untyped ts) (i stop : Nat) : annotationAt ts i stop = ([], i) := by
  rw [annotationAt, if_neg (h.ne rfl i)]

theorem declaratorList_eq_nil (h : Untyped ts) (k stop : Nat) : declaratorList ts k stop = [] := by
  have hchanges : ∀ (changes : List Change) (past k from' : Nat), (if past = k then ([], k)
      else ([], past)) = (changes, from') → changes = [] := by
    intro changes past k from' heq
    split at heq <;> exact (Prod.mk.inj heq).1.symm
  fun_induction declaratorList ts k stop with
  | case1 k hk past changes from' heq next hnext ih =>
    simp only [h.mark_eq (rfl : isUntyped .bang = false), h.annotationAt_eq, List.append_nil, dite_eq_ite] at heq
    rw [hchanges _ _ _ _ heq, List.nil_append]
    split
    · exact ih ‹_›
    · rfl
  | case2 k hk past changes from' heq hnext =>
    simp only [h.mark_eq (rfl : isUntyped .bang = false), h.annotationAt_eq, List.append_nil, dite_eq_ite] at heq
    exact hchanges _ _ _ _ heq
  | case3 => rfl

theorem parameterModifiers_eq (h : Untyped ts) (k : Nat) : parameterModifiers ts k = ([], k) := by
  have hmodifier : (ts.kind k).isMemberModifier = false := by
    have hall : ∀ kind, isUntyped kind = true → kind.isMemberModifier = false := by
      intro kind
      cases kind <;> simp [isUntyped, isPart, TokenKind.isMemberModifier, TokenKind.isAccessModifier]
    exact hall _ (h k)
  rw [parameterModifiers, hmodifier]
  simp

theorem eq_nil_of_parameter (h : Untyped ts) {k close next : Nat} {changes : List Change}
    (heq : parameter ts k close = (changes, next)) : changes = [] := by
  simp only [parameter, h.mark_eq (rfl : isUntyped .question = false), h.annotationAt_eq, List.append_nil] at heq
  exact (Prod.mk.inj heq).1.symm

theorem parameterList_eq_nil (h : Untyped ts) (k close : Nat) : parameterList ts k close = [] := by
  have hreceiver : ∀ k, isReceiver ts k ≠ true := by
    intro k hk
    have hcolon : ts.kind (k + 1) = .colon := by simp_all [isReceiver]
    exact h.ne rfl (k + 1) hcolon
  fun_induction parameterList ts k close with
  | case1 k hk modifiers k' hmodifiers hthis => exact absurd hthis (hreceiver k')
  | case2 k hk modifiers k' hmodifiers hthis => exact absurd hthis (hreceiver k')
  | case3 k hk modifiers k' hmodifiers _ changes from' hchanges next hnext ih =>
    obtain rfl : [] = modifiers := (Prod.mk.inj (h.parameterModifiers_eq k ▸ hmodifiers)).1
    obtain rfl := h.eq_nil_of_parameter hchanges
    rw [List.nil_append, List.nil_append]
    split
    · exact ih ‹_›
    · rfl
  | case4 k hk modifiers k' hmodifiers _ changes from' hchanges hnext =>
    obtain rfl : [] = modifiers := (Prod.mk.inj (h.parameterModifiers_eq k ▸ hmodifiers)).1
    exact h.eq_nil_of_parameter hchanges
  | case5 => rfl

theorem parameters_eq_nil (h : Untyped ts) (k : Nat) : parameters ts k = [] := by
  rw [parameters]
  split
  · rfl
  · rename_i close _
    rw [h.parameterList_eq_nil, if_neg (h.ne rfl (close + 1)), List.append_nil]

/-- Only a function without a body would be proposed to be erased. -/
theorem silent (h : Untyped ts) (hfunctions : ∀ i, ts.kind i = .kwFunction → overloadEnd? ts i = none)
    (i : Nat) : Silent goal ts i := by
  have hi := h i
  unfold Silent visit
  cases hkind : ts.kind i <;> simp [hkind, isUntyped, isPart] at hi ⊢
  all_goals first
    | rfl
    | skip
  case kwFunction => rw [hfunctions i hkind]; rfl
  case lparen => rw [h.parameters_eq_nil]; split <;> rfl
  all_goals exact h.declaratorList_eq_nil _ _

end Untyped

/-! ## The words of programs without types -/

theorem Value.isPart (v : Value) : isPart v.word.kind = true := by
  have hall : ∀ k ∈ [TokenKind.identifier, .numberLiteral], Grammar.isPart k = true := by decide
  exact hall _ v.kind_mem

theorem Name.isPart (n : Name) : isPart n.word.kind = true := by
  rw [n.isIdentifier]
  rfl

theorem isPart_of_mem_valueWords {value? : Option Value} {w : Word} (hw : w ∈ valueWords value?) :
    isPart w.kind = true := by
  cases value? with
  | none => contradiction
  | some v =>
    rcases List.mem_cons.mp hw with rfl | hw
    · rfl
    · exact List.mem_singleton.mp hw ▸ v.isPart

theorem isPart_of_mem_commaSeparated {α : Type} {f : α → List WordSegment}
    (h : ∀ x, ∀ w ∈ keptWords (f x), isPart w.kind = true) (xs : List α) :
    ∀ w ∈ keptWords (commaSeparated (xs.map f)), isPart w.kind = true := by
  induction xs with
  | nil => exact fun _ hw => by contradiction
  | cons x xs ih =>
    cases xs with
    | nil => exact h x
    | cons y xs =>
      intro w hw
      simp only [List.map_cons, commaSeparated, keptWords_append, keptWords, List.mem_append,
        List.mem_singleton] at hw ih
      rcases hw with hw | rfl | hw
      · exact h x w hw
      · rfl
      · exact ih w hw

theorem Declarator.isPart_of_mem (d : Declarator) :
    ∀ w ∈ keptWords d.segments, isPart w.kind = true := by
  intro w hw
  simp only [segments, keptWords, keptWords_append, keptWords_typeSegments, List.nil_append,
    List.append_nil, List.mem_append, List.mem_singleton] at hw
  rcases hw with rfl | hw
  · exact d.name.isPart
  · exact isPart_of_mem_valueWords hw

theorem Parameter.isPart_of_mem (p : Parameter) :
    ∀ w ∈ keptWords p.segments, isPart w.kind = true := by
  intro w hw
  simp only [segments, keptWords, keptWords_append, keptWords_typeSegments, keptWords_markSegments,
    List.nil_append, List.append_nil, List.mem_append, List.mem_singleton] at hw
  rcases hw with rfl | hw
  · exact p.name.isPart
  · exact isPart_of_mem_valueWords hw

/-- A declaration without types. -/
theorem isPart_of_mem_declaration {word : VariableWord} {first : Declarator}
    {rest : List Declarator} :
    ∀ w ∈ keptWords (Statement.declaration word first rest).segments, isPart w.kind = true := by
  intro w hw
  simp only [Statement.segments, keptWords, keptWords_append, List.mem_append, List.mem_singleton,
    List.append_nil] at hw
  rcases hw with rfl | hw | rfl
  · cases word <;> rfl
  · exact isPart_of_mem_commaSeparated Declarator.isPart_of_mem _ w hw
  · rfl

theorem words_erasedFunction (name : Name) (typeParameters? : Option TypeParameters)
    (parameters : List Parameter) (result? : Option TypeExpr) (value : Value) :
    keptWords (Statement.function name typeParameters? parameters result? value).segments =
      .of .kwFunction :: name.word :: .of .lparen ::
        (keptWords (commaSeparated (parameters.map Parameter.segments)) ++
          .of .rparen :: bodyWords value) := by
  simp [Statement.segments, keptWords]

/-- The words of a function without types, behind the one that it begins with. -/
theorem isPart_of_mem_function {name : Name} {parameters : List Parameter} {value : Value} :
    ∀ w ∈ name.word :: .of .lparen ::
        (keptWords (commaSeparated (parameters.map Parameter.segments)) ++
          .of .rparen :: bodyWords value), isPart w.kind = true := by
  intro w hw
  simp only [bodyWords, List.mem_cons, List.mem_append, List.not_mem_nil, or_false] at hw
  rcases hw with rfl | rfl | hw | rfl | rfl | rfl | rfl | rfl | rfl
  · exact name.isPart
  · rfl
  · exact isPart_of_mem_commaSeparated Parameter.isPart_of_mem _ w hw
  · rfl
  · rfl
  · rfl
  · exact value.isPart
  · rfl
  · rfl

/-- A function without types has a body. -/
theorem overloadEnd?_of_reads {name : Name} {parameters : List Parameter} {value : Value}
    (huntyped : Untyped ts)
    (h : Reads place ts k (.of .kwFunction :: name.word :: .of .lparen ::
      (keptWords (commaSeparated (parameters.map Parameter.segments)) ++
        .of .rparen :: bodyWords value))) : overloadEnd? ts k = none := by
  have hname : ts.kind (k + 1) = .identifier := h.tail.kind.trans name.isIdentifier
  have hparen : ts.kind (k + 1 + 1) = .lparen := h.tail.tail.kind
  have hinner : Balanced (keptWords (commaSeparated (parameters.map Parameter.segments))) := by
    rw [← words_commaSeparated parameters Parameter.words_erase]
    have herase := orderly_commaParameters (parameters.map Parameter.erase)
    rw [List.map_map] at herase
    exact herase.angled.balanced
  have hclose := matching?_eq rfl hinner h.tail.tail
  have hbody := h.tail.tail.tail.right.tail.kind
  refine overloadEnd?_eq_none hname (o := k + 1 + 1) ?_ hparen hclose ?_
  · rw [if_neg (huntyped.ne rfl _)]
  · rw [pastAnnotationAt, if_neg (huntyped.ne rfl _)]
    exact hbody

/-- **The functions of a program without types have bodies.** -/
theorem overloadEnd?_of_statements (huntyped : Untyped ts) (statements : List Statement)
    (h : Reads place ts k (keptWords (statements.flatMap Statement.segments))) {i : Nat}
    (hk : k ≤ i) (hi : i < k + (keptWords (statements.flatMap Statement.segments)).length)
    (hkind : ts.kind i = .kwFunction) : overloadEnd? ts i = none := by
  induction statements generalizing k with
  | nil => exact absurd hi (Nat.not_lt.mpr hk)
  | cons s statements ih =>
    rw [List.flatMap_cons, keptWords_append] at h hi
    by_cases hlt : i < k + (keptWords s.segments).length
    · -- the word can only be the first one of the statement
      cases s with
      | declaration word first rest =>
        obtain ⟨w, hw, hw'⟩ := h.left.exists_mem hk hlt
        have hpart := isPart_of_mem_declaration w hw
        rw [← hw', hkind] at hpart
        contradiction
      | function name typeParameters? parameters result? value =>
        have hreads := h.left
        rw [words_erasedFunction] at hreads hlt
        rcases Nat.eq_or_lt_of_le hk with rfl | hk
        · exact overloadEnd?_of_reads huntyped hreads
        · rw [List.length_cons] at hlt
          obtain ⟨w, hw, hw'⟩ := hreads.tail.exists_mem hk (by omega)
          have hpart := isPart_of_mem_function w hw
          rw [← hw', hkind] at hpart
          contradiction
    · rw [List.length_append, ← Nat.add_assoc] at hi
      exact ih h.right (Nat.le_of_not_lt hlt) hi

theorem isUntyped_of_mem (p : Program) : ∀ w ∈ p.erase.words, isUntyped w.kind = true := by
  have hpart : ∀ w : Word, isPart w.kind = true → isUntyped w.kind = true := by
    intro w hw
    rw [isUntyped, hw]
    rfl
  rw [p.words_erase, Program.segments]
  generalize p.statements = statements
  induction statements with
  | nil => exact fun _ hw => by contradiction
  | cons s statements ih =>
    intro w hw
    rw [List.flatMap_cons, keptWords_append] at hw
    rcases List.mem_append.mp hw with hw | hw
    · cases s with
      | declaration word first rest => exact hpart w (isPart_of_mem_declaration w hw)
      | function name typeParameters? parameters result? value =>
        rw [words_erasedFunction] at hw
        rcases List.mem_cons.mp hw with rfl | hw
        · rfl
        · exact hpart w (isPart_of_mem_function w hw)
    · exact ih w hw

/-! ## Programs without types -/

variable {last : TokenPlace}

theorem untyped_stream {ws : List Word} (h : ∀ w ∈ ws, isUntyped w.kind = true) :
    Untyped (stream place 0 ws ++ [endToken last]) :=
  forall_kind_stream (P := fun k => isUntyped k = true) rfl h

/-- **Nothing is proposed for a program without types,** wherever its words stand. -/
theorem silent_erase (p : Program) (i : Nat) :
    Silent goal (stream place 0 p.erase.words ++ [endToken last]) i := by
  have huntyped : Untyped (stream place 0 p.erase.words ++ [endToken last]) :=
    untyped_stream (isUntyped_of_mem p)
  refine huntyped.silent (fun i hkind => ?_) i
  rcases Nat.lt_or_ge i p.erase.words.length with hi | hi
  · have hreads : Reads place (stream place 0 p.erase.words ++ [endToken last]) 0
        (keptWords p.segments) := p.words_erase ▸ .of_append _
    rw [p.words_erase] at hi
    exact overloadEnd?_of_statements huntyped p.statements hreads (Nat.zero_le i)
      ((Nat.zero_add _).symm ▸ hi) hkind
  · rw [kind_of_length_le hi] at hkind
    contradiction

/-- A text that is made of the words of a program without types is left alone. -/
theorem pass_of_spread (hgoal : goal.commonJs = false) {p : Program} {text : String}
    (h : Spread text.toList p.erase.words) : onePass goal text = text := by
  obtain ⟨place, last, htokens, _⟩ := h.tokens_ofText
  rw [String.ofList_toList] at htokens
  rw [onePass, htokens, program_of_silent hgoal fun i _ => silent_erase p i, String.ofList_toList]

/-- **Passes settle.**  With ES modules a pass leaves a text alone or shortens it, so that after as
many passes as the text has characters nothing is left for another one.  For typed programs one pass
is enough. -/
theorem passes_settle (text : String) (module : ModuleKind) (target : ScriptTarget)
    (hmodule : module.isEsModule = true) :
    let pass := onePass (Goal.of module target)
    (pass text = text ∨ (pass text).toList.length < text.toList.length) ∧
    (∃ n ≤ text.toList.length, pass (pass^[n] text) = pass^[n] text) ∧
    ∀ p : Program, text = p.text → pass (pass text) = pass text := by
  intro pass
  have hgoal : (Goal.of module target).commonJs = false := by simp [Goal.of, hmodule]
  refine ⟨pass_eq_or_lt hmodule text, exists_settled hmodule text, ?_⟩
  rintro p rfl
  refine @pass_of_spread _ hgoal p _ ?_
  show Spread (String.ofList _).toList p.erase.words
  rw [String.toList_ofList]
  exact spread_code p hgoal

theorem passes_settle_smallProgram : ModuleKind.es2015.isEsModule = true ∧
    onePass (Goal.of .es2015 .es2015) (onePass (Goal.of .es2015 .es2015) smallProgram.text) =
      onePass (Goal.of .es2015 .es2015) smallProgram.text :=
  ⟨rfl, (passes_settle smallProgram.text .es2015 .es2015 rfl).2.2 smallProgram rfl⟩

/-- **One pass is not enough in general.**  A word that gives a type is erased only behind the end of
an expression, and the mark for a value that is there is none.  So the first pass, which erases the
mark, leaves the word to the second one. -/
theorem pass_leaves_assertion :
    let pass := onePass (Goal.of .es2015 .es2015)
    let text := "r = x! as const;"
    pass text = "r = x as const;" ∧ pass (pass text) = "r = x ;" ∧ pass (pass text) ≠ pass text := by
  decide +kernel

end TypeScriptEngine.Grammar
