import TypeScriptEngine.Proofs.Checked.Basic
import TypeScriptEngine.Proofs.Token.TypeExtent
import TypeScriptEngine.Token.Statement

/-! # Looking around in a stream

The functions that find the partner of a bracket, the end of a statement or the role of a token look
back by one or two tokens and count open brackets down.  In every stream, whether its brackets are
balanced or not, and at every index, one past the end included, they do so without a fault.
-/

namespace TypeScriptEngine.Checked

open TokenStream

variable {ts rest : TokenStream} {t : Token} {depth i : Nat}

/-! ## The tokens before -/

/-- Whether token `i` follows a dot. -/
def followsDot (ts : TokenStream) (i : Nat) : Checked Bool :=
  return (← back i 1).any fun k => (ts.kind k).isDot

theorem followsDot_eq (ts : TokenStream) (i : Nat) : followsDot ts i = .ok (ts.followsDot i) := by
  cases i <;> simp [followsDot, TokenStream.followsDot]

/-- Whether token `i` begins a statement. -/
def startsStatement (ts : TokenStream) (i : Nat) : Checked Bool := do
  match ← back i 1 with
  | none => return true
  | some k =>
    return ts.kind k == .semicolon || ts.kind k == .lbrace || ts.kind k == .rbrace ||
      (ts.lineBefore i && ts.endsExpression k)

theorem startsStatement_eq (ts : TokenStream) (i : Nat) :
    startsStatement ts i = .ok (ts.startsStatement i) := by
  cases i <;> simp [startsStatement, TokenStream.startsStatement]

/-- Whether the parenthesis at `i` follows the word `function` or `catch`. -/
def followsFunctionWord (ts : TokenStream) (i : Nat) : Checked Bool := do
  match ← back i 1 with
  | none => return false
  | some k =>
    let named := (← back k 1).any fun j => ts.kind j == .kwFunction
    return ts.kind k == .kwFunction || ts.isWord k "catch" ||
      (named && ((ts.kind k).isName || ts.kind k == .star))

theorem followsFunctionWord_eq (ts : TokenStream) (i : Nat) :
    followsFunctionWord ts i = .ok (ts.followsFunctionWord i) := by
  match i with
  | 0 => rfl
  | 1 => simp [followsFunctionWord, TokenStream.followsFunctionWord]
  | i + 2 => simp [followsFunctionWord, TokenStream.followsFunctionWord]

/-- Whether the token before `i` can be the name of a method, or close its type parameters. -/
def followsMethodName (ts : TokenStream) (i : Nat) : Checked Bool :=
  return (← back i 1).any fun k =>
    ((ts.kind k).isName || ts.kind k == .gt) && !isControlWord (ts.value k)

theorem followsMethodName_eq (ts : TokenStream) (i : Nat) :
    followsMethodName ts i = .ok (ts.followsMethodName i) := by
  cases i <;> simp [followsMethodName, TokenStream.followsMethodName]

/-- Whether the parenthesis at `i` begins a parameter list. -/
def isParameterList (ts : TokenStream) (i : Nat) : Checked Bool := do
  match ts.matching? i with
  | none => return false
  | some close =>
    let after := ts.kind (pastAnnotationAt ts (close + 1))
    return (← followsFunctionWord ts i) || after == .arrow ||
      (after == .lbrace && (← followsMethodName ts i))

theorem isParameterList_eq (ts : TokenStream) (i : Nat) :
    isParameterList ts i = .ok (ts.isParameterList i) := by
  unfold isParameterList TokenStream.isParameterList
  cases ts.matching? i with
  | none => rfl
  | some close => simp [followsFunctionWord_eq, followsMethodName_eq]

/-- Whether an `import` or `export` of module level stands at `i` or behind it, where `depth`
brackets are open. -/
def hasModuleSyntax (ts : TokenStream) (depth i : Nat) : Checked Bool :=
  if i < ts.length then do
    let dotted ← followsDot ts i
    if depth = 0 ∧ ts.kind i = .kwExport then return true
    else if depth = 0 ∧ ts.kind i = .kwImport ∧ ts.kind (i + 1) ≠ .lparen ∧
        ts.kind (i + 1) ≠ .dot ∧ !dotted then return true
    else hasModuleSyntax ts (depthAfter depth (ts.kind i)) (i + 1)
  else return false
termination_by ts.length - i

theorem length_le_of_drop_eq_nil (h : ts.drop i = []) : ¬i < ts.length :=
  Nat.not_lt.mpr (List.drop_eq_nil_iff.mp h)

theorem hasModuleSyntax_eq {previous : TokenKind} (h : ts.drop i = rest)
    (hprevious : previous.isDot = ts.followsDot i) :
    hasModuleSyntax ts depth i = .ok (TokenStream.hasModuleSyntax previous depth rest) := by
  induction rest generalizing depth i previous with
  | nil => rw [hasModuleSyntax, if_neg (length_le_of_drop_eq_nil h)]; rfl
  | cons t rest ih =>
    obtain ⟨hlt, hkind, hrest⟩ := of_drop_eq_cons h
    rw [hasModuleSyntax, if_pos hlt, TokenStream.hasModuleSyntax, followsDot_eq, ok_bind, hkind,
      kind_eq_headKind_drop ts (i + 1), hrest, hprevious, ih hrest (congrArg _ hkind.symm)]
    split
    · rfl
    · split <;> rfl

/-- Whether a text is a module. -/
def isModule (ts : TokenStream) : Checked Bool := hasModuleSyntax ts 0 0

theorem isModule_eq (ts : TokenStream) : isModule ts = .ok ts.isModule :=
  hasModuleSyntax_eq rfl rfl

/-! ## Brackets -/

/-- The index of the closer of a bracket, looked for from `i` on, where `depth` are open. -/
def closerFrom (ts : TokenStream) (opener closer : TokenKind) (depth i : Nat) :
    Checked (Option Nat) :=
  if i < ts.length then
    if ts.kind i = opener then closerFrom ts opener closer (depth + 1) (i + 1)
    else if ts.kind i = closer then do
      let depth ← sub depth 1
      if depth = 0 then return some i else closerFrom ts opener closer depth (i + 1)
    else closerFrom ts opener closer depth (i + 1)
  else return none
termination_by ts.length - i

theorem map_offset (x? : Option Nat) (i : Nat) :
    (x?.map (· + 1)).map (i + ·) = x?.map (i + 1 + ·) := by
  rw [Option.map_map]
  exact congrArg (x?.map ·) (funext fun n => by simp only [Function.comp_apply]; omega)

/-- Behind an opener at least one bracket is open, so that the count does not go below zero. -/
theorem closerFrom_eq {opener closer : TokenKind} (h : ts.drop i = rest) :
    closerFrom ts opener closer (depth + 1) i =
      .ok ((closerOffset? opener closer depth rest).map (i + ·)) := by
  induction rest generalizing depth i with
  | nil => rw [closerFrom, if_neg (length_le_of_drop_eq_nil h)]; rfl
  | cons t rest ih =>
    obtain ⟨hlt, hkind, hrest⟩ := of_drop_eq_cons h
    rw [closerFrom, if_pos hlt, closerOffset?.eq_def, hkind]
    simp only
    split
    · rw [ih hrest, map_offset]
    · split
      · rw [sub_add, ok_bind]
        cases depth with
        | zero => rfl
        | succ depth => rw [if_neg (Nat.succ_ne_zero depth), ih hrest, map_offset]
      · rw [ih hrest, map_offset]

/-- The index of the closer of the bracket at `i`. -/
def matching? (ts : TokenStream) (i : Nat) : Checked (Option Nat) :=
  match (ts.kind i).closer? with
  | none => return none
  | some closer => closerFrom ts (ts.kind i) closer 0 i

theorem matching?_eq (ts : TokenStream) (i : Nat) : matching? ts i = .ok (ts.matching? i) := by
  unfold matching? TokenStream.matching?
  cases hdrop : ts.drop i with
  | nil =>
    have hkind : ts.kind i = .eof := by rw [kind_eq_headKind_drop, hdrop, headKind]
    rw [hkind]
    rfl
  | cons t rest =>
    obtain ⟨hlt, hkind, hrest⟩ := of_drop_eq_cons hdrop
    rw [hkind, bracketSpan?]
    cases hcloser : t.kind.closer? with
    | none => rfl
    | some closer =>
      simp only [Option.bind_some]
      rw [closerFrom, if_pos hlt, if_pos hkind, closerFrom_eq hrest, map_offset]

theorem kind_of_closerOffset? {opener closer : TokenKind} {n : Nat}
    (h : closerOffset? opener closer depth ts = some n) : ts.kind n = closer := by
  fun_induction closerOffset? opener closer depth ts generalizing n with
  | case1 => contradiction
  | case2 depth t rest _ ih =>
    obtain ⟨m, hm, rfl⟩ := Option.map_eq_some_iff.mp h
    exact ih hm
  | case3 t rest _ hclose =>
    obtain rfl := Option.some.inj h
    exact hclose
  | case4 t rest _ _ depth ih =>
    obtain ⟨m, hm, rfl⟩ := Option.map_eq_some_iff.mp h
    exact ih hm
  | case5 depth t rest _ _ ih =>
    obtain ⟨m, hm, rfl⟩ := Option.map_eq_some_iff.mp h
    exact ih hm

theorem kind_drop (ts : TokenStream) (i n : Nat) : kind (ts.drop i) n = ts.kind (i + n) := by
  unfold kind
  rw [List.getElem?_drop]

/-- The partner of a bracket is of the other kind. -/
theorem kind_of_matching? {j : Nat} (h : ts.matching? i = some j) :
    (ts.kind i).closer? = some (ts.kind j) := by
  obtain ⟨n, hspan, rfl⟩ := Option.map_eq_some_iff.mp h
  cases hdrop : ts.drop i with
  | nil =>
    rw [hdrop] at hspan
    contradiction
  | cons t rest =>
    rw [hdrop, bracketSpan?] at hspan
    obtain ⟨closer, hcloser, hoffset⟩ := Option.bind_eq_some_iff.mp hspan
    obtain ⟨m, hm, rfl⟩ := Option.map_eq_some_iff.mp hoffset
    obtain ⟨_, hkind, hrest⟩ := of_drop_eq_cons hdrop
    rw [hkind, hcloser, show i + (m + 1) = i + 1 + m by omega, ← kind_drop, hrest,
      kind_of_closerOffset? hm]

/-- The index of the angle bracket that closes type arguments, looked for from `i` on, where `depth`
are open. -/
def angleFrom (ts : TokenStream) (depth i : Nat) : Checked (Option Nat) :=
  if i < ts.length then
    if ts.kind i = .lt then angleFrom ts (depth + 1) (i + 1)
    else if ts.kind i = .gt then do
      let depth ← sub depth 1
      if depth = 0 then return some i else angleFrom ts depth (i + 1)
    else if (ts.kind i).isOpener then
      match h : ts.matching? i with
      | some close => angleFrom ts depth (close + 1)
      | none => return none
    else if endsTypeArguments (ts.kind i) then return none
    else angleFrom ts depth (i + 1)
  else return none
termination_by ts.length - i
decreasing_by
  · omega
  · omega
  · have := lt_of_matching? h
    omega
  · omega

theorem angleFrom_eq (h : ts.drop i = rest) :
    angleFrom ts (depth + 1) i = .ok ((angleOffset? depth rest).map (i + ·)) := by
  fun_induction angleOffset? depth rest generalizing i with
  | case1 => rw [angleFrom, if_neg (length_le_of_drop_eq_nil h)]; rfl
  | case2 depth t rest hopen ih =>
    obtain ⟨hlt, hkind, hrest⟩ := of_drop_eq_cons h
    rw [angleFrom, if_pos hlt, hkind, if_pos hopen, ih hrest, map_offset]
  | case3 t rest hopen hclose =>
    obtain ⟨hlt, hkind, hrest⟩ := of_drop_eq_cons h
    rw [angleFrom, if_pos hlt, hkind, if_neg hopen, if_pos hclose]
    rfl
  | case4 t rest hopen hclose depth ih =>
    obtain ⟨hlt, hkind, hrest⟩ := of_drop_eq_cons h
    rw [angleFrom, if_pos hlt, hkind, if_neg hopen, if_pos hclose, sub_add, ok_bind,
      if_neg (Nat.succ_ne_zero depth), ih hrest, map_offset]
  | case5 depth t rest hopen hclose hbracket ih =>
    obtain ⟨hlt, hkind, hrest⟩ := of_drop_eq_cons h
    rw [angleFrom, if_pos hlt, hkind, if_neg hopen, if_neg hclose, if_pos hbracket]
    -- the tokens up to the partner of the bracket are skipped at once
    have hmatching : ts.matching? i = (bracketSpan? (t :: rest)).map (i + ·) := by
      rw [TokenStream.matching?, h]
    cases hspan : bracketSpan? (t :: rest) with
    | none =>
      rw [hspan] at hmatching
      split
      · rename_i heq
        exact absurd (hmatching.symm.trans heq) (by simp)
      · rfl
    | some n =>
      rw [hspan] at hmatching
      split
      · rename_i close heq
        obtain rfl : i + n = close := Option.some.inj (hmatching.symm.trans heq)
        have hbehind : ts.drop (i + n + 1) = rest.drop n := by
          rw [← hrest, List.drop_drop]
          congr 1
          omega
        rw [ih n hbehind, Option.bind_some, Option.map_map]
        exact congrArg Except.ok (congrArg (Option.map · _) (funext fun m => by
          simp only [Function.comp_apply]; omega))
      · rename_i heq
        exact absurd (hmatching.symm.trans heq) (by simp)
  | case6 depth t rest hopen hclose hbracket hends =>
    obtain ⟨hlt, hkind, hrest⟩ := of_drop_eq_cons h
    rw [angleFrom, if_pos hlt, hkind, if_neg hopen, if_neg hclose, if_neg hbracket, if_pos hends]
    rfl
  | case7 depth t rest hopen hclose hbracket hends ih =>
    obtain ⟨hlt, hkind, hrest⟩ := of_drop_eq_cons h
    rw [angleFrom, if_pos hlt, hkind, if_neg hopen, if_neg hclose, if_neg hbracket, if_neg hends,
      ih hrest, map_offset]

/-- The index of the closer of the angle bracket at `i`. -/
def matchingAngle? (ts : TokenStream) (i : Nat) : Checked (Option Nat) :=
  if ts.kind i = .lt then angleFrom ts 0 i else return none

theorem matchingAngle?_eq (ts : TokenStream) (i : Nat) :
    matchingAngle? ts i = .ok (ts.matchingAngle? i) := by
  unfold matchingAngle? TokenStream.matchingAngle?
  cases hdrop : ts.drop i with
  | nil =>
    have hkind : ts.kind i = .eof := by rw [kind_eq_headKind_drop, hdrop, headKind]
    rw [hkind]
    rfl
  | cons t rest =>
    obtain ⟨hlt, hkind, hrest⟩ := of_drop_eq_cons hdrop
    rw [hkind, angleSpan?]
    split
    · rename_i hopen
      rw [angleFrom, if_pos hlt, hkind, if_pos hopen, angleFrom_eq hrest, map_offset]
    · rfl

/-! ## Statements -/

/-- The number of open brackets after a token. -/
def depthPast (depth : Nat) (k : TokenKind) : Checked Nat :=
  if k.isOpener then .ok (depth + 1) else if k.isCloser then sub depth 1 else .ok depth

/-- A closer is counted only where a bracket is open. -/
theorem depthPast_eq {k : TokenKind} (h : ¬(k.isCloser ∧ depth = 0)) :
    depthPast depth k = .ok (depthAfter depth k) := by
  unfold depthPast depthAfter
  split
  · rfl
  · split
    · rename_i hcloser
      exact sub_eq_ok (Nat.one_le_iff_ne_zero.mpr fun hdepth => h ⟨hcloser, hdepth⟩)
    · rfl

/-- The index just past a statement, looked for from `i` on, where `depth` brackets are open. -/
def statementEnd (ts : TokenStream) (depth i : Nat) : Checked Nat :=
  if i < ts.length then
    if ts.kind i = .eof then return i
    else if (ts.kind i).isCloser ∧ depth = 0 then return i
    else if ts.kind i = .semicolon ∧ depth = 0 then return i + 1
    else do
      let depth ← depthPast depth (ts.kind i)
      let last ← sub (i + 1) 1
      if depth = 0 ∧ ts.lineBefore (i + 1) ∧ ts.endsExpression last ∧
          !(ts.kind (i + 1)).continuesExpression then return i + 1
      else statementEnd ts depth (i + 1)
  else return i
termination_by ts.length - i

theorem statementEnd_eq (h : ts.drop i = rest) :
    statementEnd ts depth i = .ok (i + statementLength depth rest) := by
  induction rest generalizing depth i with
  | nil => rw [statementEnd, if_neg (length_le_of_drop_eq_nil h)]; rfl
  | cons t rest ih =>
    obtain ⟨hlt, hkind, hrest⟩ := of_drop_eq_cons h
    have hends : ts.endsExpression i = t.endsExpression := by
      rw [TokenStream.endsExpression, ← List.head?_drop, h]
      rfl
    rw [statementEnd, if_pos hlt, statementLength, hkind]
    split
    · rfl
    split
    · rfl
    split
    · rfl
    rename_i hcloser _
    rw [depthPast_eq hcloser, ok_bind, sub_add, ok_bind, hends, lineBefore_eq_headLineBefore_drop, hrest,
      kind_eq_headKind_drop ts (i + 1), hrest, ih hrest]
    simp only [breaksAfter, Bool.and_eq_true, and_assoc]
    split
    · rfl
    · rw [Nat.add_assoc]

/-- The index just past the statement at `i`. -/
def pastStatement (ts : TokenStream) (i : Nat) : Checked Nat := statementEnd ts 0 i

theorem pastStatement_eq (ts : TokenStream) (i : Nat) :
    pastStatement ts i = .ok (ts.pastStatement i) :=
  statementEnd_eq rfl

end TypeScriptEngine.Checked
