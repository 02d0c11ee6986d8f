import TypeScriptEngine.Proofs.Grammar.Program

/-! # The erasure of types

The code of a typed program has the words of the program without its types (`program_erases`).  The
proof follows the emitter through the constructs: each of its readers finds in a stream exactly what
the tree says is there, so that what it proposes are the `cuts` of the construct.
-/

namespace TypeScriptEngine.Grammar

open TokenStream Emit

variable {place : Nat → TokenPlace} {ts : TokenStream} {k stop : Nat} {w : Word}
  {ws inner : List Word}

/-! ## Brackets and types in a stream -/

theorem matchingAngle?_eq (hinner : Angled inner)
    (h : Reads place ts k (.of .lt :: (inner ++ .of .gt :: ws))) :
    ts.matchingAngle? k = some (k + 1 + inner.length) := by
  obtain ⟨rest, hrest⟩ := h
  simp only [stream_cons, stream_append, List.append_assoc, List.cons_append] at hrest
  rw [matchingAngle?, hrest, angleSpan?_angles rfl rfl hinner, Option.map_some, Nat.add_assoc,
    Nat.add_comm 1]

theorem pastType_eq (hflat : Flat place) (hk : 0 < k) (type : TypeExpr)
    (h : Reads place ts k (type.words ++ w :: ws)) (hw : endsType w.kind = true) :
    ts.pastType k = k + type.words.length := by
  obtain ⟨rest, hrest⟩ := h
  rw [stream_append, List.append_assoc, stream_cons] at hrest
  rw [pastType, hrest, type.typeLength_eq hflat hk (by exact hw)]

theorem pastAnnotationAt_eq (hflat : Flat place) (type? : Option TypeExpr)
    (h : Reads place ts k (allWords (typeSegments type?) ++ w :: ws)) (hw : endsType w.kind = true)
    (hcolon : w.kind ≠ .colon) :
    pastAnnotationAt ts k = k + (allWords (typeSegments type?)).length := by
  cases type? with
  | none => rw [pastAnnotationAt, h.kind, if_neg hcolon]; rfl
  | some type =>
    have hwords : allWords (typeSegments (some type)) = .of .colon :: type.words :=
      List.append_nil _
    rw [hwords] at h ⊢
    rw [pastAnnotationAt, h.kind, Word.kind_of, Terminal.kind, if_pos rfl,
      pastType_eq hflat (Nat.succ_pos k) type h.tail hw, List.length_cons]
    omega

/-! ## Parts of declarations -/

/-- What is proposed for the type of the result. -/
theorem resultType_eq (hflat : Flat place) (type? : Option TypeExpr)
    (h : Reads place ts k (allWords (typeSegments type?) ++ w :: ws)) (hw : endsType w.kind = true)
    (hcolon : w.kind ≠ .colon) :
    (if ts.kind k = .colon then [Change.erase k (ts.pastType (k + 1))] else []) =
      cuts k (typeSegments type?) := by
  cases type? with
  | none => rw [h.kind, if_neg hcolon]; rfl
  | some type =>
    have hwords : allWords (typeSegments (some type)) = .of .colon :: type.words :=
      List.append_nil _
    rw [hwords] at h
    have hpast : ts.pastType (k + 1) = k + (type.words.length + 1) := by
      rw [pastType_eq hflat (Nat.succ_pos k) type h.tail hw]
      omega
    rw [h.kind, Word.kind_of, Terminal.kind, if_pos rfl, hpast]
    rfl

theorem annotationAt_eq (stop : Nat) (hflat : Flat place) (type? : Option TypeExpr)
    (h : Reads place ts k (allWords (typeSegments type?) ++ w :: ws)) (hw : endsType w.kind = true)
    (hcolon : w.kind ≠ .colon) (hstop : k + (allWords (typeSegments type?)).length ≤ stop) :
    annotationAt ts k stop =
      (cuts k (typeSegments type?), k + (allWords (typeSegments type?)).length) := by
  cases type? with
  | none => rw [annotationAt, h.kind, if_neg hcolon]; rfl
  | some type =>
    have hwords : allWords (typeSegments (some type)) = .of .colon :: type.words :=
      List.append_nil _
    rw [hwords] at h hstop ⊢
    rw [List.length_cons] at hstop ⊢
    have hpast : min (ts.pastType (k + 1)) stop = k + (type.words.length + 1) := by
      rw [pastType_eq hflat (Nat.succ_pos k) type h.tail hw]
      omega
    rw [annotationAt, h.kind, Word.kind_of, Terminal.kind, if_pos rfl]
    simp only [hpast]
    rfl

theorem mark_of_ne {kind : TokenKind} (h : ts.kind k ≠ kind) : mark ts kind k = ([], k) := by
  rw [mark, if_neg h]

theorem mark_eq (optional : Bool)
    (h : Reads place ts k (allWords (markSegments optional) ++ w :: ws)) (hw : w.kind ≠ .question) :
    mark ts .question k =
      (cuts k (markSegments optional), k + (allWords (markSegments optional)).length) := by
  cases optional with
  | false => exact mark_of_ne (h.kind ▸ hw)
  | true => rw [mark, h.kind, Word.kind_of, Terminal.kind, if_pos rfl]; rfl

/-- The tokens behind a type in a list of declarators or parameters. -/
def endsPart : TokenKind → Bool
  | .equals | .comma | .semicolon | .rparen => true
  | _ => false

theorem of_endsPart {k : TokenKind} (h : endsPart k = true) :
    endsType k = true ∧ k ≠ .colon ∧ k ≠ .bang ∧ k ≠ .question := by
  revert h
  cases k <;> simp [endsPart, endsType]

theorem exists_valueWords_append (value? : Option Value) (ws : List Word)
    (hw : endsPart w.kind = true) :
    ∃ w' ws', valueWords value? ++ w :: ws = w' :: ws' ∧ endsPart w'.kind = true := by
  cases value? with
  | none => exact ⟨w, ws, rfl, hw⟩
  | some v => exact ⟨_, _, rfl, rfl⟩

theorem exists_typeSegments_append (type? : Option TypeExpr) (value? : Option Value)
    (ws : List Word) (hw : endsPart w.kind = true) : ∃ w' ws', allWords (typeSegments type?) ++
      (valueWords value? ++ w :: ws) = w' :: ws' ∧ w'.kind ≠ .bang ∧ w'.kind ≠ .question := by
  cases type? with
  | none =>
    obtain ⟨w', ws', heq, hw'⟩ := exists_valueWords_append value? ws hw
    exact ⟨w', ws', heq, (of_endsPart hw').2.2⟩
  | some type => exact ⟨_, _, rfl, by decide, by decide⟩

/-! ## The next comma -/

theorem pastComma?_of_le (h : stop ≤ k) : pastComma? ts k stop = none := by
  rw [pastComma?, if_neg (Nat.not_lt.mpr h)]

theorem pastComma?_comma (hk : k < stop) (h : ts.kind k = .comma) :
    pastComma? ts k stop = some (k + 1) := by
  rw [pastComma?, if_pos hk, h]

/-- A token that is no comma and opens no bracket is passed over. -/
theorem pastComma?_succ (hk : k < stop)
    (h : ts.kind k ∈ [.equals, .identifier, .numberLiteral, .semicolon]) :
    pastComma? ts k stop = pastComma? ts (k + 1) stop := by
  rw [pastComma?, if_pos hk]
  simp only [List.mem_cons, List.not_mem_nil, or_false] at h
  rcases h with h | h | h | h <;> simp only [h]

theorem pastComma?_valueWords (value? : Option Value) (stop : Nat)
    (h : Reads place ts k (valueWords value? ++ ws))
    (hstop : k + (valueWords value?).length ≤ stop) :
    pastComma? ts k stop = pastComma? ts (k + (valueWords value?).length) stop := by
  cases value? with
  | none => rfl
  | some v =>
    have hlength : (valueWords (some v)).length = 2 := rfl
    have hvalue : ts.kind (k + 1) ∈ [.equals, .identifier, .numberLiteral, .semicolon] := by
      rw [h.tail.kind]
      have := v.kind_mem
      simp only [List.mem_cons, List.not_mem_nil, or_false] at this ⊢
      exact .inr (this.imp_right .inl)
    rw [hlength] at hstop ⊢
    rw [pastComma?_succ (by omega) (h.kind ▸ List.mem_cons_self ..),
      pastComma?_succ (by omega) hvalue]

/-! ## Declarators -/

theorem pastBinding_name (n : Name) (stop : Nat) (h : Reads place ts k (n.word :: ws)) :
    pastBinding ts k stop = k + 1 := by
  have hkind : ts.kind k = .identifier := h.kind.trans n.isIdentifier
  rw [pastBinding, hkind]
  rfl

/-- A declarator proposes its cuts, and the next one is looked for behind it. -/
theorem declaratorList_declarator (hflat : Flat place) (d : Declarator)
    (h : Reads place ts k (allWords d.segments ++ w :: ws)) (hw : endsPart w.kind = true)
    (hstop : k + (allWords d.segments).length ≤ stop) :
    declaratorList ts k stop = cuts k d.segments ++
      match pastComma? ts (k + (allWords d.segments).length) stop with
      | some next => if k < next then declaratorList ts next stop else []
      | none => [] := by
  rw [cuts_declarator]
  rw [allWords_declarator, List.length_cons, List.length_append] at hstop ⊢
  rw [allWords_declarator, List.cons_append, List.append_assoc] at h
  obtain ⟨w₁, ws₁, heq₁, hbang, _⟩ := exists_typeSegments_append d.type? d.value? ws hw
  obtain ⟨w₂, ws₂, heq₂, hw₂⟩ := exists_valueWords_append d.value? ws hw
  have hbinding := pastBinding_name d.name stop h
  have hmark : mark ts .bang (k + 1) = ([], k + 1) := by
    have htail := h.tail
    rw [heq₁] at htail
    exact mark_of_ne (htail.kind ▸ hbang)
  have htype := annotationAt_eq stop hflat d.type? (heq₂ ▸ h.tail) (of_endsPart hw₂).1
    (of_endsPart hw₂).2.1 (by omega)
  have hcomma := pastComma?_valueWords d.value? stop h.tail.right (by omega)
  rw [declaratorList, if_pos (by omega)]
  simp only [hbinding, hmark, htype, hcomma, if_neg (Nat.succ_ne_self k), List.nil_append]
  rw [show k + 1 + (allWords (typeSegments d.type?)).length + (valueWords d.value?).length =
    k + ((allWords (typeSegments d.type?)).length + (valueWords d.value?).length + 1) by omega]
  cases pastComma? ts _ stop <;> simp

/-- **The declarators of a statement propose their cuts.** -/
theorem declaratorList_eq (hflat : Flat place) (d : Declarator) (ds : List Declarator)
    (h : Reads place ts k
      (allWords (commaSeparated ((d :: ds).map Declarator.segments)) ++ .of .semicolon :: ws))
    (hstop : stop = k + (allWords (commaSeparated ((d :: ds).map Declarator.segments))).length + 1) :
    declaratorList ts k stop = cuts k (commaSeparated ((d :: ds).map Declarator.segments)) := by
  induction ds generalizing d k with
  | nil =>
    have hwords : commaSeparated ([d].map Declarator.segments) = d.segments := rfl
    rw [hwords] at h hstop ⊢
    have hsemicolon := h.right.kind
    have hnone : pastComma? ts (k + (allWords d.segments).length) stop = none := by
      rw [pastComma?_succ (by omega) (by rw [hsemicolon]; decide), pastComma?_of_le (by omega)]
    rw [declaratorList_declarator hflat d h rfl (by omega), hnone, List.append_nil]
  | cons d' ds ih =>
    have hwords : commaSeparated ((d :: d' :: ds).map Declarator.segments) =
        d.segments ++ .kept [.of .comma] :: commaSeparated ((d' :: ds).map Declarator.segments) := rfl
    rw [hwords, allWords_append, allWords, List.append_assoc, List.singleton_append] at h
    rw [hwords, allWords_append, allWords, List.length_append, List.length_append,
      List.length_singleton] at hstop
    have hcomma : pastComma? ts _ stop = _ := pastComma?_comma (by omega) h.right.kind
    rw [declaratorList_declarator hflat d h rfl (by omega), hcomma]
    simp only [if_pos (show k < k + (allWords d.segments).length + 1 by omega)]
    rw [ih d' h.right.tail (by omega), hwords, cuts_append, cuts]
    rfl

/-! ## Parameters -/

/-- A parameter proposes its cuts, and the next one is looked for behind it. -/
theorem parameterList_parameter (hflat : Flat place) (p : Parameter)
    (h : Reads place ts k (allWords p.segments ++ w :: ws)) (hw : endsPart w.kind = true)
    (hstop : k + (allWords p.segments).length ≤ stop) :
    parameterList ts k stop = cuts k p.segments ++
      match pastComma? ts (k + (allWords p.segments).length) stop with
      | some next => if k < next then parameterList ts next stop else []
      | none => [] := by
  rw [cuts_parameter]
  rw [allWords_parameter, List.length_cons, List.length_append, List.length_append] at hstop ⊢
  rw [allWords_parameter, List.cons_append, List.append_assoc, List.append_assoc] at h
  obtain ⟨w₁, ws₁, heq₁, _, hquestion⟩ := exists_typeSegments_append p.type? p.value? ws hw
  obtain ⟨w₂, ws₂, heq₂, hw₂⟩ := exists_valueWords_append p.value? ws hw
  have hname : ts.kind k = .identifier := h.kind.trans p.name.isIdentifier
  have hreceiver : isReceiver ts k = false := by
    have hthis : ts.value k ≠ "this" := h.value ▸ p.name.ne_this
    simp [isReceiver, isWord, hthis]
  have hmodifiers : parameterModifiers ts k = ([], k) := by
    rw [parameterModifiers]
    simp [hname, TokenKind.isMemberModifier, TokenKind.isAccessModifier]
  have hmark := mark_eq p.optional (heq₁ ▸ h.tail) hquestion
  have htype := annotationAt_eq stop hflat p.type? (heq₂ ▸ h.tail.right) (of_endsPart hw₂).1
    (of_endsPart hw₂).2.1 (by omega)
  have hcomma := pastComma?_valueWords p.value? stop h.tail.right.right (by omega)
  have hparameter : parameter ts k stop = (cuts (k + 1) (markSegments p.optional) ++
      cuts (k + 1 + (allWords (markSegments p.optional)).length) (typeSegments p.type?),
      k + 1 + (allWords (markSegments p.optional)).length +
        (allWords (typeSegments p.type?)).length) := by
    rw [parameter, hname, if_neg (by decide)]
    simp only [pastBinding_name p.name stop h, hmark, htype]
  rw [parameterList, if_pos (by omega)]
  simp only [hmodifiers, hreceiver, hparameter, hcomma, List.nil_append]
  rw [show k + 1 + (allWords (markSegments p.optional)).length +
      (allWords (typeSegments p.type?)).length + (valueWords p.value?).length =
    k + ((allWords (markSegments p.optional)).length +
      ((allWords (typeSegments p.type?)).length + (valueWords p.value?).length) + 1) by omega]
  cases pastComma? ts _ stop <;> simp

/-- **The parameters of a function propose their cuts.** -/
theorem parameterList_eq (hflat : Flat place) (ps : List Parameter)
    (h : Reads place ts k
      (allWords (commaSeparated (ps.map Parameter.segments)) ++ .of .rparen :: ws))
    (hstop : stop = k + (allWords (commaSeparated (ps.map Parameter.segments))).length) :
    parameterList ts k stop = cuts k (commaSeparated (ps.map Parameter.segments)) := by
  cases ps with
  | nil =>
    rw [parameterList, if_neg (by rw [hstop]; exact Nat.lt_irrefl k)]
    rfl
  | cons p ps =>
    induction ps generalizing p k with
    | nil =>
      have hwords : commaSeparated ([p].map Parameter.segments) = p.segments := rfl
      rw [hwords] at h hstop ⊢
      rw [parameterList_parameter hflat p h rfl (by omega), pastComma?_of_le (by omega),
        List.append_nil]
    | cons p' ps ih =>
      have hwords : commaSeparated ((p :: p' :: ps).map Parameter.segments) =
          p.segments ++ .kept [.of .comma] ::
            commaSeparated ((p' :: ps).map Parameter.segments) := rfl
      rw [hwords, allWords_append, allWords, List.append_assoc, List.singleton_append] at h
      rw [hwords, allWords_append, allWords, List.length_append, List.length_append,
        List.length_singleton] at hstop
      have hcomma : pastComma? ts _ stop = _ := pastComma?_comma (by omega) h.right.kind
      rw [parameterList_parameter hflat p h rfl (by omega), hcomma]
      simp only [if_pos (show k < k + (allWords p.segments).length + 1 by omega)]
      rw [ih p' h.right.tail (by omega), hwords, cuts_append, cuts]
      rfl

/-! ## Statements -/

variable {goal : Goal} {d : Draft}

theorem VariableWord.kind_mem (word : VariableWord) :
    word.word.kind ∈ [.kwVar, .kwLet, .kwConst] := by
  cases word <;> simp [VariableWord.word]

/-- A declaration of variables ends at its semicolon. -/
theorem pastStatement_eq (hflat : Flat place) {word : Word}
    (hword : word.kind ∈ [.kwVar, .kwLet, .kwConst]) (hinner : Angled inner)
    (h : Reads place ts k (word :: (inner ++ .of .semicolon :: ws))) :
    ts.pastStatement k = k + 1 + inner.length + 1 := by
  have hall : ∀ k ∈ [TokenKind.kwVar, .kwLet, .kwConst],
      k.isCloser ≠ true ∧ k ≠ .semicolon ∧ depthAfter 0 k = 0 := by decide
  obtain ⟨hclose, hsemicolon, hdepth⟩ := hall _ hword
  obtain ⟨rest, hrest⟩ := h
  simp only [stream_cons, stream_append, List.append_assoc, List.cons_append] at hrest
  have hline : headLineBefore ((Word.of .semicolon).token (place (k + 1 + inner.length)) ::
      (stream place (k + 1 + inner.length + 1) ws ++ rest)) = false := hflat _ (by omega)
  rw [pastStatement, hrest, statementLength_step (fun h => absurd h hclose) hsemicolon
    (headLineBefore_stream hflat (Nat.succ_pos k) hline), hdepth,
    statementLength_angled hflat hinner (Nat.succ_pos k) hline, statementLength]
  simp [TokenKind.isCloser]
  omega

theorem visit_variableWord (h : ts.kind k ∈ [.kwVar, .kwLet, .kwConst]) :
    visit goal ts d k = .proposing (declarators ts k) k := by
  simp only [List.mem_cons, List.not_mem_nil, or_false] at h
  rcases h with h | h | h <;> simp only [visit, h]

theorem length_kept_cons (k : Nat) (w : Word) (segs : List WordSegment) :
    k + (allWords (.kept [w] :: segs)).length = k + 1 + (allWords segs).length := by
  rw [allWords, List.length_append, List.length_singleton, Nat.add_assoc]

/-- The walk over what a token proposes to cut out of the segments behind it. -/
theorem walk_cutting {segs : List WordSegment} (hready : Ready ts d k)
    (hvisit : visit goal ts d k = .proposing (cuts (k + 1) segs) k)
    (hreads : Reads place ts (k + 1) (allWords segs))
    (hlast : k + 1 + (allWords segs).length ≤ ts.last) (hproper : Proper segs)
    (hquiet : ∀ w ∈ keptWords segs, isQuiet w.kind = true) :
    walk goal ts d k =
      walk goal ts (d.applyAll ts (cuts (k + 1) segs)) (k + 1 + (allWords segs).length) := by
  have hbodies := ((hready.next k.le_succ).applyAll hproper hlast).bodies
  rw [walk_visit (by omega) (hready.free k (Nat.le_refl k)), hvisit]
  show walk goal ts (d.applyAll ts (cuts (k + 1) segs)) (max (k + 1) (k + 1)) = _
  rw [Nat.max_self]
  exact walk_over_segments hbodies hready.size hreads hlast (fun c hc => hc) hquiet

/-- The walk over the declaration of variables. -/
theorem walk_declaration (hflat : Flat place) (word : VariableWord) (first : Declarator)
    (rest : List Declarator)
    (h : Reads place ts k (allWords (Statement.declaration word first rest).segments))
    (hready : Ready ts d k)
    (hlast : k + (allWords (Statement.declaration word first rest).segments).length ≤ ts.last) :
    walk goal ts d k =
      walk goal ts (d.applyAll ts (cuts k (Statement.declaration word first rest).segments))
        (k + (allWords (Statement.declaration word first rest).segments).length) := by
  have hparts := orderly_commaSeparated Declarator.orderly (first :: rest)
  rw [Statement.segments, length_kept_cons] at hlast ⊢
  rw [Statement.segments, allWords, List.singleton_append] at h
  have hreads := h
  rw [allWords_append] at hreads
  have hvisit : visit goal ts d k = .proposing (cuts (k + 1) (commaSeparated
      ((first :: rest).map Declarator.segments) ++ [.kept [.of .semicolon]])) k := by
    rw [visit_variableWord (h.kind ▸ word.kind_mem), declarators, declaratorList_eq hflat first rest
      hreads.tail (pastStatement_eq hflat word.kind_mem hparts.angled hreads), cuts_append]
    simp [cuts]
  refine walk_cutting hready hvisit h.tail hlast (hparts.proper.append (.kept proper_nil))
    fun w hw => ?_
  rw [keptWords_append] at hw
  rcases List.mem_append.mp hw with hw | hw
  · exact hparts.quiet w hw
  · rw [List.mem_singleton.mp hw]
    rfl

/-! ## Functions -/

section

variable {parameters : List Parameter} {typeParameters? : Option TypeParameters}
  {result? : Option TypeExpr} {o close : Nat}

/-- The parameters and the result type of a function, from its parenthesis up to its body. -/
def signatureSegments (parameters : List Parameter) (result? : Option TypeExpr) : List WordSegment :=
  commaSeparated (parameters.map Parameter.segments) ++ .kept [.of .rparen] :: typeSegments result?

theorem allWords_signature : allWords (signatureSegments parameters result?) =
    allWords (commaSeparated (parameters.map Parameter.segments)) ++
      .of .rparen :: allWords (typeSegments result?) := by
  simp [signatureSegments, allWords]

theorem orderly_commaParameters (parameters : List Parameter) :
    Orderly (commaSeparated (parameters.map Parameter.segments)) :=
  orderly_commaSeparated Parameter.orderly parameters

theorem proper_signature : Proper (signatureSegments parameters result?) :=
  (orderly_commaParameters parameters).proper.append (orderly_typeSegments result?).proper.kept

theorem quiet_signature :
    ∀ w ∈ keptWords (signatureSegments parameters result?), isQuiet w.kind = true := by
  intro w hw
  rw [signatureSegments, keptWords_append, keptWords, keptWords_typeSegments] at hw
  rcases List.mem_append.mp hw with hw | hw
  · exact (orderly_commaParameters parameters).quiet w hw
  · rw [List.mem_singleton.mp hw]
    rfl

theorem quiet_bodyWords (value : Value) : ∀ w ∈ bodyWords value, isQuiet w.kind = true := by
  have hall : ∀ k ∈ [TokenKind.identifier, .numberLiteral], isQuiet k = true := by decide
  have hvalue := hall _ value.kind_mem
  intro w hw
  simp only [bodyWords, List.mem_cons, List.not_mem_nil, or_false] at hw
  rcases hw with rfl | rfl | rfl | rfl | rfl <;> first | exact hvalue | rfl

theorem segments_function (name : Name) (value : Value) :
    (Statement.function name typeParameters? parameters result? value).segments =
      .kept [.of .kwFunction, name.word] :: (typeParameterSegments typeParameters? ++
        .kept [.of .lparen] :: (signatureSegments parameters result? ++
          [.kept (bodyWords value)])) := by
  simp [Statement.segments, signatureSegments]

/-- The parenthesis of a function is closed, and its body comes behind the result type. -/
theorem exists_close (hflat : Flat place) (h : Reads place ts k
      (.of .lparen :: (allWords (signatureSegments parameters result?) ++ .of .lbrace :: ws))) :
    ∃ close, ts.matching? k = some close ∧ ts.kind (pastAnnotationAt ts (close + 1)) = .lbrace ∧
      Emit.parameters ts k = cuts (k + 1) (signatureSegments parameters result?) := by
  rw [allWords_signature, List.append_assoc, List.cons_append] at h
  have hclose := matching?_eq rfl (orderly_commaParameters parameters).angled.balanced h
  have hbehind := h.tail.right.tail
  have hpast := pastAnnotationAt_eq hflat result? hbehind rfl (by decide)
  refine ⟨_, hclose, ?_, ?_⟩
  · rw [hpast, hbehind.right.kind, Word.kind_of, Terminal.kind]
  · rw [Emit.parameters, hclose]
    simp only
    rw [parameterList_eq hflat parameters h.tail rfl,
      resultType_eq hflat result? hbehind rfl (by simp), signatureSegments, cuts_append, cuts, List.length_singleton]

/-- Type parameters are closed before the parenthesis of the function. -/
theorem pastTypeParameters_eq
    (h : Reads place ts k (allWords (typeParameterSegments typeParameters?) ++ .of .lparen :: ws)) :
    (if ts.kind k = .lt then (ts.matchingAngle? k).map (· + 1) else some k) =
      some (k + (allWords (typeParameterSegments typeParameters?)).length) := by
  cases typeParameters? with
  | none => rw [h.kind, if_neg (by simp)]; rfl
  | some ps =>
    have hwords : allWords (typeParameterSegments (some ps)) ++ .of .lparen :: ws =
        .of .lt :: (ps.words ++ .of .gt :: .of .lparen :: ws) := by
      simp [typeParameterSegments, allWords]
    rw [hwords] at h
    rw [h.kind, Word.kind_of, Terminal.kind, if_pos rfl, matchingAngle?_eq ps.angled h]
    simp [typeParameterSegments, allWords]
    omega

theorem overloadEnd?_eq_none (hname : ts.kind (k + 1) = .identifier)
    (hopen : (if ts.kind (k + 1 + 1) = .lt then (ts.matchingAngle? (k + 1 + 1)).map (· + 1)
      else some (k + 1 + 1)) = some o)
    (hparen : ts.kind o = .lparen) (hclose : ts.matching? o = some close)
    (hbody : ts.kind (pastAnnotationAt ts (close + 1)) = .lbrace) : overloadEnd? ts k = none := by
  unfold overloadEnd? guard
  rw [hname, if_neg (by decide)]
  split at hopen
  · rename_i hlt
    obtain ⟨c, hc, rfl⟩ := Option.map_eq_some_iff.mp hopen
    simp [hname, hlt, hc, hparen, hclose, hbody, TokenKind.isName]
  · rename_i hlt
    obtain rfl := Option.some.inj hopen
    simp [hname, hparen, hclose, hbody, TokenKind.isName]

/-- The walk over type parameters. -/
theorem walk_typeParameters (hname : ts.kind k = .identifier)
    (h : Reads place ts (k + 1)
      (allWords (typeParameterSegments typeParameters?) ++ .of .lparen :: ws))
    (hready : Ready ts d (k + 1))
    (hlast : k + 1 + (allWords (typeParameterSegments typeParameters?)).length ≤ ts.last) :
    walk goal ts d (k + 1) =
      walk goal ts (d.applyAll ts (cuts (k + 1) (typeParameterSegments typeParameters?)))
        (k + 1 + (allWords (typeParameterSegments typeParameters?)).length) := by
  cases typeParameters? with
  | none => rfl
  | some ps =>
    have hwords : allWords (typeParameterSegments (some ps)) ++ .of .lparen :: ws =
        .of .lt :: (ps.words ++ .of .gt :: .of .lparen :: ws) := by
      simp [typeParameterSegments, allWords]
    have hlength : (allWords (typeParameterSegments (some ps))).length = ps.words.length + 2 := by
      simp [typeParameterSegments, allWords]
    have hreads := h
    rw [hwords] at hreads
    rw [hlength] at hlast ⊢
    have hcuts : cuts (k + 1) (typeParameterSegments (some ps)) =
        [.erase (k + 1) (k + 1 + (ps.words.length + 2))] := by
      simp [typeParameterSegments, cuts]
    have harguments : typeArguments? ts (k + 1) = some (k + 1 + (ps.words.length + 2)) := by
      have hparen := hreads.tail.right.tail.kind
      rw [typeArguments?, hname, if_pos (by rfl), matchingAngle?_eq ps.angled hreads]
      simp only [Option.bind_some, hparen, Word.kind_of, Terminal.kind, if_true]
      rw [Nat.add_assoc, Nat.add_assoc, Nat.add_assoc, Nat.add_assoc, Nat.add_comm 1 (_ + 1)]
    have hvisit : visit goal ts d (k + 1) = .erasing (k + 1) (k + 1 + (ps.words.length + 2)) := by
      simp only [visit, hreads.kind, Word.kind_of, Terminal.kind, harguments]
    rw [walk_visit (by omega) (hready.free _ (Nat.le_refl _)), hvisit, hcuts]
    show walk goal ts _ (max (k + 1 + (ps.words.length + 2)) (k + 1 + 1)) = _
    rw [Nat.max_eq_left (by omega)]
    rfl

/-- The parenthesis of a function begins a parameter list. -/
theorem isParameterList_of_body (hclose : ts.matching? o = some close)
    (hbody : ts.kind (pastAnnotationAt ts (close + 1)) = .lbrace)
    (hbefore : ts.followsFunctionWord o = true ∨ ts.followsMethodName o = true) :
    ts.isParameterList o = true := by
  rw [isParameterList, hclose]
  simp only [hbody]
  rcases hbefore with h | h <;> simp [h]

theorem followsName (hfunction : ts.kind k = .kwFunction) (hname : ts.kind (k + 1) = .identifier)
    (h : Reads place ts (k + 2)
      (allWords (typeParameterSegments typeParameters?) ++ .of .lparen :: ws)) :
    ts.followsFunctionWord (k + 2 + (allWords (typeParameterSegments typeParameters?)).length) =
        true ∨
      ts.followsMethodName (k + 2 + (allWords (typeParameterSegments typeParameters?)).length) =
        true := by
  cases typeParameters? with
  | none =>
    left
    show ts.followsFunctionWord (k + 2) = true
    rw [followsFunctionWord, hfunction, hname]
    simp [TokenKind.isName]
  | some ps =>
    right
    have hwords : allWords (typeParameterSegments (some ps)) ++ .of .lparen :: ws =
        .of .lt :: (ps.words ++ .of .gt :: .of .lparen :: ws) := by
      simp [typeParameterSegments, allWords]
    have hlength : k + 2 + (allWords (typeParameterSegments (some ps))).length =
        k + 2 + 1 + ps.words.length + 1 := by
      simp [typeParameterSegments, allWords]
      omega
    rw [hwords] at h
    rw [hlength, followsMethodName, h.tail.right.kind, h.tail.right.value]
    rfl

/-- The walk over a function. -/
theorem walk_function (hflat : Flat place) (name : Name)
    (typeParameters? : Option TypeParameters) (parameters : List Parameter)
    (result? : Option TypeExpr) (value : Value)
    (h : Reads place ts k (allWords
      (Statement.function name typeParameters? parameters result? value).segments))
    (hready : Ready ts d k)
    (hlast : k + (allWords (Statement.function name typeParameters? parameters result?
      value).segments).length ≤ ts.last) :
    walk goal ts d k =
      walk goal ts (d.applyAll ts
        (cuts k (Statement.function name typeParameters? parameters result? value).segments))
        (k + (allWords
          (Statement.function name typeParameters? parameters result? value).segments).length) := by
  have htypes : ∀ ts?, Proper (typeParameterSegments ts?) := fun ts? =>
    (orderly_typeParameterSegments ts?).proper
  rw [segments_function] at h hlast ⊢
  have hwords : allWords (.kept [.of .kwFunction, name.word] :: (typeParameterSegments
      typeParameters? ++ .kept [.of .lparen] :: (signatureSegments parameters result? ++
        [.kept (bodyWords value)]))) = .of .kwFunction :: name.word ::
      (allWords (typeParameterSegments typeParameters?) ++ .of .lparen ::
        (allWords (signatureSegments parameters result?) ++ bodyWords value)) := by
    simp [allWords]
  have hcuts : cuts k (.kept [.of .kwFunction, name.word] :: (typeParameterSegments
      typeParameters? ++ .kept [.of .lparen] :: (signatureSegments parameters result? ++
        [.kept (bodyWords value)]))) = cuts (k + 2) (typeParameterSegments typeParameters?) ++
      cuts (k + 2 + (allWords (typeParameterSegments typeParameters?)).length + 1)
        (signatureSegments parameters result? ++ [.kept (bodyWords value)]) := by
    simp [cuts]
  have hrest : allWords (signatureSegments parameters result? ++ [.kept (bodyWords value)]) =
      allWords (signatureSegments parameters result?) ++ bodyWords value := by
    simp [allWords]
  rw [hwords] at h hlast ⊢
  rw [hcuts, Draft.applyAll_append]
  simp only [List.length_cons, List.length_append] at hlast ⊢
  obtain ⟨close, hclose, hbody, hparameters⟩ := exists_close hflat h.tail.tail.right
  have hname : ts.kind (k + 1) = .identifier := h.tail.kind.trans name.isIdentifier
  have hparen := h.tail.tail.right.kind
  have hreads := h.tail.tail.right.tail
  have hoverload := overloadEnd?_eq_none hname (pastTypeParameters_eq h.tail.tail) hparen hclose hbody
  have hfollows := followsName h.kind hname h.tail.tail
  have hready' := hready.next (Nat.le_add_right k 2)
  have hpast := hready'.applyAll (htypes typeParameters?) (by omega)
  rw [← hrest] at hreads
  -- the word `function`, for which nothing is proposed, and the name
  have hword : walk goal ts d k = walk goal ts d (k + 1) := by
    have hvisit : visit goal ts d k = .proposing [] k := by
      simp only [visit, h.kind, Word.kind_of, Terminal.kind, hoverload]
    rw [walk_visit (by omega) (hready.free k (Nat.le_refl k)), hvisit]
    show walk goal ts d (max (k + 1) (k + 1)) = _
    rw [Nat.max_self]
  have hskip : walk goal ts d (k + 1) = walk goal ts d (k + 2) := by
    refine walk_over hready.bodies (by omega) (by omega) fun j hj hstop => .inr ?_
    obtain rfl : j = k + 1 := by omega
    rw [hname]
    rfl
  rw [hword, hskip, walk_typeParameters hname h.tail.tail hready' (by omega)]
  have hend : k + ((allWords (typeParameterSegments typeParameters?)).length +
      ((allWords (signatureSegments parameters result?)).length + (bodyWords value).length + 1) +
        1 + 1) = k + 2 + (allWords (typeParameterSegments typeParameters?)).length + 1 +
      (allWords (signatureSegments parameters result? ++ [.kept (bodyWords value)])).length := by
    rw [hrest, List.length_append]
    omega
  rw [hend] at hlast ⊢
  refine walk_cutting hpast ?_ hreads hlast (proper_signature.append (.kept proper_nil)) ?_
  · simp only [visit, hparen, Word.kind_of, Terminal.kind,
      isParameterList_of_body hclose hbody hfollows, if_true, hparameters, cuts_append, cuts,
      List.append_nil]
  · intro w hw
    rw [keptWords_append] at hw
    rcases List.mem_append.mp hw with hw | hw
    · exact quiet_signature w hw
    · exact quiet_bodyWords value w (List.append_nil (bodyWords value) ▸ hw)

end

theorem walk_statement (hflat : Flat place) (s : Statement)
    (h : Reads place ts k (allWords s.segments)) (hready : Ready ts d k)
    (hlast : k + (allWords s.segments).length ≤ ts.last) :
    walk goal ts d k = walk goal ts (d.applyAll ts (cuts k s.segments))
      (k + (allWords s.segments).length) := by
  cases s with
  | declaration word first rest => exact walk_declaration hflat word first rest h hready hlast
  | function name typeParameters? parameters result? value =>
    exact walk_function hflat name typeParameters? parameters result? value h hready hlast

/-! ## Programs -/

theorem Program.proper (p : Program) : Proper p.segments := by
  obtain ⟨statements⟩ := p
  rw [Program.segments]
  induction statements with
  | nil => exact proper_nil
  | cons s statements ih => exact s.proper.append ih

/-- **The walk over a program carries out its cuts.** -/
theorem walk_statements (hflat : Flat place) (statements : List Statement)
    (h : Reads place ts k (allWords (statements.flatMap Statement.segments)))
    (hready : Ready ts d k)
    (hlast : k + (allWords (statements.flatMap Statement.segments)).length = ts.last) :
    walk goal ts d k = d.applyAll ts (cuts k (statements.flatMap Statement.segments)) := by
  induction statements generalizing d k with
  | nil =>
    rw [walk, if_neg (by rw [← hlast]; exact Nat.lt_irrefl k)]
    rfl
  | cons s statements ih =>
    rw [List.flatMap_cons, allWords_append, List.length_append, ← Nat.add_assoc] at hlast
    rw [List.flatMap_cons, allWords_append] at h
    have hle : k + (allWords s.segments).length ≤ ts.last := hlast ▸ Nat.le_add_right ..
    rw [walk_statement hflat s h.left hready hle, ih h.right (hready.applyAll s.proper hle) hlast,
      List.flatMap_cons, cuts_append, Draft.applyAll_append]

/-- The draft of a program holds its cuts. -/
theorem walk_program (hflat : Flat place) (p : Program) (last : TokenPlace)
    (hgoal : goal.commonJs = false) :
    walk goal (stream place 0 p.words ++ [endToken last])
        (firstDraft goal (stream place 0 p.words ++ [endToken last])) 0 =
      (Draft.empty (stream place 0 p.words ++ [endToken last])).applyAll
        (stream place 0 p.words ++ [endToken last]) (cuts 0 p.segments) := by
  rw [firstDraft_of_esModule hgoal]
  refine walk_statements hflat p.statements (.of_append _) ⟨Draft.freeFrom_empty _, ?_, rfl⟩ ?_
  · simp [Draft.empty]
  · simp [TokenStream.last, Program.words, Program.segments]

/-- The text of a program. -/
def Program.text (p : Program) : String := String.ofList (print p.words)

/-- **The code of a program is made of the words of the program without types.** -/
theorem spread_code (p : Program) (hgoal : goal.commonJs = false) :
    Spread (program goal (Scan.ofText p.text).tokens p.text.toList) p.erase.words := by
  obtain ⟨last, htokens⟩ := tokens_print p.words
  have hcode : program goal (Scan.ofText p.text).tokens p.text.toList =
      program goal (printed p.words last) (print p.words) := by
    simp only [Program.text, htokens, String.toList_ofList]
    rfl
  have hfinish := spread_finish (p := last) p.proper
  rw [hcode, program, printed, walk_program (flat_placeAt _) p last hgoal, p.words_erase]
  exact hfinish

/-- **Types are erased.**  The code of a typed program for ES modules is scanned as the same tokens,
up to where they stand, as the program without type parameters, types and marks. -/
theorem program_erases (p : Program) (module : ModuleKind) (target : ScriptTarget)
    (hmodule : module.isEsModule = true) :
    let code := program (Goal.of module target) (Scan.ofText p.text).tokens p.text.toList
    (Scan.ofText (String.ofList code)).tokens.map Token.content =
      (Scan.ofText p.erase.text).tokens.map Token.content := by
  intro code
  have hgoal : (Goal.of module target).commonJs = false := by simp [Goal.of, hmodule]
  rw [(spread_code p hgoal).content_ofText, Program.text, (spread_print _).content_ofText]

theorem program_erases_smallProgram : ModuleKind.es2015.isEsModule = true ∧
    smallProgram.text = "function f < T extends \"a\" > ( x ? : T [ ] | T ) : ( ) => T " ++
      "{ return x ; } const y : T = 1 ;" ∧
    smallProgram.erase.text = "function f ( x ) { return x ; } const y = 1 ;" ∧
    (Scan.ofText (String.ofList (program (Goal.of .es2015 .es2015)
      (Scan.ofText smallProgram.text).tokens smallProgram.text.toList))).tokens.map Token.content =
        (Scan.ofText smallProgram.erase.text).tokens.map Token.content :=
  ⟨rfl, by decide +kernel, by decide +kernel, program_erases smallProgram .es2015 .es2015 rfl⟩

end TypeScriptEngine.Grammar
