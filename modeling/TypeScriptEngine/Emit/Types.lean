import TypeScriptEngine.Emit.Draft

/-!
# Erasing types

The changes that remove type syntax: annotations, type parameters and arguments, modifiers,
signatures without a body, interfaces and type aliases.  Each function looks at one construct, which
begins at a token index, and proposes changes or tells where the construct ends.
-/

namespace TypeScriptEngine.Emit

open TokenStream

variable (ts : TokenStream)

/-- The index behind the angle brackets at `k`, or behind the token if they are none. -/
def pastAngle (k : Nat) : Nat := (ts.matchingAngle? k).elim (k + 1) (· + 1)

theorem lt_pastAngle (k : Nat) : k < pastAngle ts k := by
  unfold pastAngle
  cases h : ts.matchingAngle? k with
  | none => simp
  | some c => have := lt_of_matchingAngle? h; simp; omega

theorem lt_pastBracket (k bound : Nat) (hk : k < bound) : k < ts.pastBracket k bound := by
  unfold pastBracket
  cases h : ts.matching? k with
  | none => simpa
  | some c => have := lt_of_matching? h; simp; omega

/-! ## Declarations without code -/

/-- The index behind the interface whose name is at or behind `k`. -/
def interfaceEnd (k : Nat) : Nat :=
  if k < ts.last then
    match ts.kind k with
    | .lbrace => ts.pastBracket k ts.last
    | .lt => interfaceEnd (pastAngle ts k)
    | .semicolon => k + 1
    | _ => interfaceEnd (k + 1)
  else ts.last
termination_by ts.last - k
decreasing_by
  · have := lt_pastAngle ts k; omega
  · omega

/-- The index behind the type alias whose word `type` is at `i`. -/
def typeAliasEnd (i : Nat) : Nat :=
  let parameters := if ts.kind (i + 2) = .lt then ts.matchingAngle? (i + 2) else some (i + 1)
  match parameters with
  | none => ts.pastStatement i
  | some close =>
    if ts.kind (close + 1) = .equals then
      let stop := ts.pastType (close + 2)
      if ts.kind stop = .semicolon then stop + 1 else stop
    else ts.pastStatement i

/-- The index behind the function at `i` if it has no body. -/
def overloadEnd? (i : Nat) : Option Nat := do
  let name := if ts.kind (i + 1) = .star then i + 2 else i + 1
  guard (ts.kind name).isName
  let open' ← if ts.kind (name + 1) = .lt then (ts.matchingAngle? (name + 1)).map (· + 1)
    else some (name + 1)
  guard (ts.kind open' = .lparen)
  let close ← ts.matching? open'
  let after := ts.pastAnnotationAt (close + 1)
  match ts.kind after with
  | .lbrace => none
  | .semicolon => some (after + 1)
  | _ => some after

/-- The closing brace of the body of the function whose word is before `k`. -/
def functionBodyClose? (k : Nat) : Option Nat :=
  if k < ts.last then
    match ts.kind k with
    | .lparen =>
      (ts.matching? k).bind fun close =>
        let after := ts.pastAnnotationAt (close + 1)
        if ts.kind after = .lbrace then ts.matching? after else none
    | .lt =>
      match h : ts.matchingAngle? k with
      | some close => functionBodyClose? (close + 1)
      | none => none
    | _ => functionBodyClose? (k + 1)
  else none
termination_by ts.last - k
decreasing_by
  · have := lt_of_matchingAngle? h; omega
  · omega

/-- The opening brace of the body of the class whose word is before `k`. -/
def classBodyOpen? (k : Nat) : Option Nat :=
  if k < ts.last then
    match ts.kind k with
    | .lbrace => some k
    | .lt =>
      match h : ts.matchingAngle? k with
      | some close => classBodyOpen? (close + 1)
      | none => none
    | .lparen | .lbracket =>
      match h : ts.matching? k with
      | some close => classBodyOpen? (close + 1)
      | none => none
    | .semicolon => none
    | _ => classBodyOpen? (k + 1)
  else none
termination_by ts.last - k
decreasing_by
  · have := lt_of_matchingAngle? h; omega
  · have := lt_of_matching? h; omega
  · omega

/-! ## Classes -/

/-- The type arguments in the `extends` clause from `k` on, and where the clause ends. -/
def extendsClause (k : Nat) : List Change × Nat :=
  if k < ts.last then
    match ts.kind k with
    | .lbrace | .kwImplements | .eof => ([], k)
    | .lt =>
      let past := pastAngle ts k
      let (changes, stop) := extendsClause past
      if past = k + 1 then (changes, stop) else (.erase k past :: changes, stop)
    | .lparen | .lbracket => extendsClause (ts.pastBracket k ts.last)
    | _ => extendsClause (k + 1)
  else ([], k)
termination_by ts.last - k
decreasing_by
  · have := lt_pastAngle ts k; omega
  · have := lt_pastBracket ts k ts.last ‹_›; omega
  · omega

/-- The type parameters and clauses between the word of the class at `i` and its body, which is
marked. -/
def classHeader (i : Nat) : List Change :=
  let k := if (ts.kind (i + 1)).isName && ts.kind (i + 1) != .kwImplements then i + 2 else i + 1
  let (parameters, k) := match ts.matchingAngle? k with
    | some close => ([Change.erase k (close + 1)], close + 1)
    | none => ([], k)
  let (parents, k) := if ts.kind k = .kwExtends then extendsClause ts (k + 1) else ([], k)
  if ts.kind k = .kwImplements then
    match classBodyOpen? ts (k + 1) with
    | some body => parameters ++ parents ++ [.erase k body, .openClassBody body]
    | none => parameters ++ parents
  else parameters ++ parents ++ if ts.kind k = .lbrace then [.openClassBody k] else []

/-- Whether the word at `k` modifies a member: the name of the member must follow. -/
def isModifier (k : Nat) : Bool :=
  let next := ts.kind (k + 1)
  next.isName || match next with
    | .lbracket | .stringLiteral | .numberLiteral | .star | .operator | .lbrace => true
    | _ => false

/-- What the words before the name of a member say. -/
structure MemberModifiers where
  /-- The erasure of those that are no code. -/
  changes : List Change
  /-- Whether the member is declared without code. -/
  bodiless : Bool
  /-- The index behind the modifiers. -/
  stop : Nat
deriving DecidableEq, Repr

/-- The modifiers of a member from `k` on. -/
def memberModifiers (k : Nat) : MemberModifiers :=
  if k < ts.length then
    let kind := ts.kind k
    if kind.isMemberModifier && isModifier ts k then
      let rest := memberModifiers (k + 1)
      { rest with changes := .erase k (k + 1) :: rest.changes }
    else if (kind == .kwAbstract || kind == .kwDeclare) && isModifier ts k then
      { memberModifiers (k + 1) with bodiless := true }
    else if (kind == .kwStatic || kind == .kwAsync) && isModifier ts k then memberModifiers (k + 1)
    else if (ts.isWord k "get" || ts.isWord k "set") && isModifier ts k &&
        ts.kind (k + 1) != .lbrace then memberModifiers (k + 1)
    else ⟨[], false, k⟩
  else ⟨[], false, k⟩
termination_by ts.length - k

/-- The index behind the name of a member at `k`, if there is one. -/
def memberName? (k stop : Nat) : Option Nat :=
  match ts.kind k with
  | .lbracket => some (ts.pastBracket k stop)
  | .stringLiteral | .numberLiteral => some (k + 1)
  | .operator => if ts.value k = "#" then some (k + 2) else none
  | kind => if kind.isName then some (k + 1) else none

/-- The changes for what follows the name of a member that reaches from `start` to `stop`: its
type, or all of it if it is a signature without a body. -/
def memberType (start k stop : Nat) : List Change :=
  match ts.kind k with
  | .colon => [.erase k (min (ts.pastType (k + 1)) stop)]
  | .lt | .lparen =>
    let open' := if ts.kind k = .lt then (ts.matchingAngle? k).elim stop (· + 1) else k
    match if ts.kind open' = .lparen then ts.matching? open' else none with
    | none => []
    | some close =>
      if ts.kind (ts.pastAnnotationAt (close + 1)) = .lbrace then [] else [.erase start stop]
  | _ => []

/-- The changes of the class member that reaches from `start` to `stop`. -/
def classMember (start stop : Nat) : List Change :=
  let modifiers := memberModifiers ts start
  let k := modifiers.stop
  let isIndexSignature :=
    ts.kind k == .lbracket && (ts.kind (k + 1)).isName && ts.kind (k + 2) == .colon
  if modifiers.bodiless || isIndexSignature then modifiers.changes ++ [.erase start stop]
  else
    match memberName? ts (if ts.kind k = .star then k + 1 else k) stop with
    | none => modifiers.changes
    | some k =>
      if ts.kind k = .question ∨ ts.kind k = .bang then
        modifiers.changes ++ .erase k (k + 1) :: memberType ts start (k + 1) stop
      else modifiers.changes ++ memberType ts start k stop

/-- The index behind the member of a class at `k`, in a class that is closed at `close`. -/
def memberEnd (k close : Nat) : Nat :=
  if k < close then
    match ts.kind k with
    | .lbrace => ts.pastBracket k close
    | .semicolon => k + 1
    | kind =>
      let next := match kind with
        | .lparen | .lbracket => ts.pastBracket k close
        | .lt => pastAngle ts k
        | _ => k + 1
      if next < close ∧ ts.lineBefore next ∧ ts.endsExpression (next - 1) ∧
          !(ts.kind next).continuesExpression then next
      else if k < next then memberEnd next close else close
  else close
termination_by close - k

/-- The changes of the class members from `k` on. -/
def classMembers (k close : Nat) : List Change :=
  if k < close then
    if ts.kind k = .semicolon then classMembers (k + 1) close
    else
      let stop := memberEnd ts k close
      classMember ts k stop ++ classMembers (max stop (k + 1)) close
  else []
termination_by close - k

/-- The changes in the body of the class whose brace is at `i`. -/
def classBody (i : Nat) : List Change :=
  match ts.matching? i with
  | some close => classMembers ts (i + 1) close
  | none => []

/-! ## Parameters and variables -/

/-- The modifiers of a parameter from `k` on, and the index behind them. -/
def parameterModifiers (k : Nat) : List Change × Nat :=
  if k < ts.length then
    let next := ts.kind (k + 1)
    if (ts.kind k).isMemberModifier && (next.isName || next == .lbrace || next == .lbracket) then
      let (changes, stop) := parameterModifiers (k + 1)
      (.erase k (k + 1) :: changes, stop)
    else ([], k)
  else ([], k)
termination_by ts.length - k

/-- The index behind the binding at `k`, a name or a pattern, if there is one. -/
def pastBinding (k stop : Nat) : Nat :=
  match ts.kind k with
  | .lbrace | .lbracket => ts.pastBracket k stop
  | kind => if kind.isName then k + 1 else k

/-- The changes for the annotation at `k`, which may be missing, and the index behind it. -/
def annotationAt (k stop : Nat) : List Change × Nat :=
  if ts.kind k = .colon then
    let past := min (ts.pastType (k + 1)) stop
    ([.erase k past], past)
  else ([], k)

/-- The changes for the mark at `k`, which may be missing, and the index behind it. -/
def mark (kind : TokenKind) (k : Nat) : List Change × Nat :=
  if ts.kind k = kind then ([.erase k (k + 1)], k + 1) else ([], k)

/-- The changes of a parameter from `k` on, in a list closed at `close`; and the index from which to
look for the next comma. -/
def parameter (k close : Nat) : List Change × Nat :=
  let k := if ts.kind k = .ellipsis then k + 1 else k
  let (optional, k) := mark ts .question (pastBinding ts k close)
  let (type, k) := annotationAt ts k close
  (optional ++ type, k)

/-- Whether the parameter at `k` is the type of the receiver, which is no parameter of the code. -/
def isReceiver (k : Nat) : Bool := ts.isWord k "this" && ts.kind (k + 1) == .colon

/-- The index behind the receiver at `k` and its comma. -/
def pastReceiver (k close : Nat) : Nat :=
  let past := min (ts.pastType (k + 2)) close
  if ts.kind past = .comma then past + 1 else past

/-- The index behind the next comma from `k` on, outside brackets and before `stop`. -/
def pastComma? (k stop : Nat) : Option Nat :=
  if k < stop then
    match ts.kind k with
    | .comma => some (k + 1)
    | .lparen | .lbracket | .lbrace =>
      let past := ts.pastBracket k stop
      if k < past then pastComma? past stop else none
    | _ => pastComma? (k + 1) stop
  else none
termination_by stop - k

theorem lt_of_pastComma? {k stop next : Nat} (h : pastComma? ts k stop = some next) : k < next := by
  fun_induction pastComma? ts k stop <;> simp_all <;> omega

/-- The changes of the parameters from `k` on, in a list closed at `close`. -/
def parameterList (k close : Nat) : List Change :=
  if k < close then
    let (modifiers, k') := parameterModifiers ts k
    if isReceiver ts k' then
      let past := pastReceiver ts k' close
      let here := modifiers ++ [.erase k' past]
      if k < past then here ++ parameterList past close else here
    else
      let (changes, from') := parameter ts k' close
      match pastComma? ts from' close with
      | some next =>
        modifiers ++ changes ++ if k < next then parameterList next close else []
      | none => modifiers ++ changes
  else []
termination_by close - k

/-- The changes of the parameter list at `i` and of the result type behind it. -/
def parameters (i : Nat) : List Change :=
  match ts.matching? i with
  | none => []
  | some close =>
    parameterList ts (i + 1) close ++
      if ts.kind (close + 1) = .colon then [.erase (close + 1) (ts.pastType (close + 2))] else []

/-- The changes of the declarators from `k` on, in a statement that ends at `stop`. -/
def declaratorList (k stop : Nat) : List Change :=
  if k < stop then
    let past := pastBinding ts k stop
    let (changes, from') :=
      if past = k then ([], k)
      else
        let (definite, past) := mark ts .bang past
        let (type, past) := annotationAt ts past stop
        (definite ++ type, past)
    match pastComma? ts from' stop with
    | some next => changes ++ if k < next then declaratorList next stop else []
    | none => changes
  else []
termination_by stop - k

/-- The changes of the variable statement at `i`. -/
def declarators (i : Nat) : List Change := declaratorList ts (i + 1) (ts.pastStatement i)

/-! ## Type arguments, assertions -/

/-- Whether type arguments or parameters can stand behind a token. -/
def takesTypeArguments (k : TokenKind) : Bool :=
  k.isName || match k with
    | .kwFunction | .equals | .lparen | .comma | .arrow | .colon | .question | .kwReturn => true
    | _ => false

/-- The index behind the angle brackets at `i` if they hold type arguments or parameters: a
parenthesis must follow. -/
def typeArguments? : Nat → Option Nat
  | 0 => none
  | i + 1 =>
    if takesTypeArguments (ts.kind i) then
      (ts.matchingAngle? (i + 1)).bind fun close =>
        if ts.kind (close + 1) = .lparen then some (close + 1) else none
    else none

/-- Whether the exclamation mark at `i` asserts that a value is there: it must stand right behind a
name or a closing bracket. -/
def isNonNullAssertion : Nat → Bool
  | 0 => false
  | i + 1 =>
    let previous := ts.kind i
    (previous.isName || previous == .rparen || previous == .rbracket) &&
      ts.stopOf i == ts.startOf (i + 1)

/-- Whether the word at `i` gives a type to the expression before it. -/
def isTypeAssertion : Nat → Bool
  | 0 => false
  | i + 1 => ts.endsExpression i && !ts.lineBefore (i + 1)

/-- The index behind the type that the word at `i` gives. -/
def typeAssertionEnd (i : Nat) : Nat :=
  if ts.kind (i + 1) = .kwConst then i + 2 else ts.pastType (i + 1)

/-- The words that can follow `declare`. -/
def startsDeclaration : TokenKind → Bool
  | .kwVar | .kwLet | .kwConst | .kwFunction | .kwClass | .kwEnum | .kwModule | .kwNamespace
  | .kwGlobal | .kwAbstract | .kwType | .kwInterface | .kwAsync => true
  | _ => false

end TypeScriptEngine.Emit
