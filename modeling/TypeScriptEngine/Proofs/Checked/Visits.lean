import TypeScriptEngine.Emit.Program
import TypeScriptEngine.Proofs.Checked.Declarations
import TypeScriptEngine.Proofs.Checked.Proposals

/-! # Visits

What is proposed for a token, in the steps in which a visit finds it out.  A visit looks up how many
brackets are open at its token in an array that was filled before the walk; the lists of names and
the declarations that it rewrites have lengths and ends that are differences of indices.
-/

namespace TypeScriptEngine.Checked

open TokenStream Emit

variable {ts : TokenStream} {i first stop : Nat}

/-! ## Lists of names -/

/-- The entry of a list of names that reaches from `first` to `stop`. -/
def specifier (ts : TokenStream) (first stop close : Nat) : Checked Specifier := do
  let length ← sub stop first
  let typeOnly := ts.kind first == .kwType && 2 ≤ length &&
    !(length == 3 && ts.kind (first + 1) == .kwAs)
  let name := if typeOnly then first + 1 else first
  return { first, name, typeOnly
           stop := if stop < close then stop + 1 else stop
           alias? :=
             if ts.kind (name + 1) = .kwAs ∧ name + 2 < stop then some (name + 2) else none }

theorem specifier_eq (h : first ≤ stop) (close : Nat) :
    specifier ts first stop close = .ok (Specifier.ofRange ts first stop close) := by
  rw [specifier, sub_eq_ok h]
  rfl

/-- The entries from `first` on, in a list closed at `close`. -/
def specifiers (ts : TokenStream) (first close : Nat) : Checked (List Specifier) :=
  if first < close then do
    let stop := Specifier.nextComma ts first close
    let entry ← specifier ts first stop close
    if first < stop + 1 then
      let rest ← specifiers ts (stop + 1) close
      return if first < stop then entry :: rest else rest
    else .error .standstill
  else return []
termination_by close - first

theorem specifiers_eq (ts : TokenStream) (first close : Nat) :
    specifiers ts first close = .ok (Specifier.list ts first close) := by
  fun_induction Specifier.list ts first close with
  | case1 first hfirst stop rest hlt ih =>
    have hle : first ≤ stop := Specifier.le_nextComma ts first close
    rw [specifiers, if_pos hfirst]
    change (specifier ts first stop close >>= _) = _
    rw [specifier_eq hle, ok_bind, if_pos (Nat.lt_succ_of_le hle), ih, ok_bind, if_pos hlt]
    rfl
  | case2 first hfirst stop rest hge ih =>
    have hle : first ≤ stop := Specifier.le_nextComma ts first close
    rw [specifiers, if_pos hfirst]
    change (specifier ts first stop close >>= _) = _
    rw [specifier_eq hle, ok_bind, if_pos (Nat.lt_succ_of_le hle), ih, ok_bind, if_neg hge]
    rfl
  | case3 first hfirst =>
    rw [specifiers, if_neg hfirst]
    rfl

/-- The entries of the braces at `k`, which may be missing, and the index behind them.  Braces that
are not closed reach to `stop`. -/
def bracedSpecifiers (ts : TokenStream) (k stop : Nat) : Checked (List Specifier × Nat) := do
  if ts.kind k = .lbrace then
    let close := (← matching? ts k).getD stop
    return (← specifiers ts (k + 1) close, close + 1)
  else return ([], k)

theorem bracedSpecifiers_eq (ts : TokenStream) (k stop : Nat) :
    bracedSpecifiers ts k stop = .ok (if ts.kind k = .lbrace then
      let close := (ts.matching? k).getD stop
      (Specifier.list ts (k + 1) close, close + 1) else ([], k)) := by
  unfold bracedSpecifiers
  simp only [matching?_eq, specifiers_eq, ok_bind, pure_eq_ok]
  split <;> rfl

/-! ## Import declarations -/

/-- The parts of the import declaration that goes on at `k` and ends at `stop`. -/
def importClause (ts : TokenStream) (k stop : Nat) : Checked ImportClause :=
  if ts.kind k = .stringLiteral then return ⟨none, none, [], some k⟩
  else do
    let (default?, k) :=
      if (ts.kind k).isName && !ImportClause.isFromClause ts k then
        (some k, if ts.kind (k + 1) = .comma then k + 2 else k + 1)
      else (none, k)
    let (whole?, k) :=
      if ts.kind k = .star ∧ ts.kind (k + 1) = .kwAs then (some (k + 2), k + 3) else (none, k)
    let (specifiers, k) ← bracedSpecifiers ts k stop
    return ⟨default?, whole?, specifiers,
      if ImportClause.isFromClause ts k then some (k + 1) else none⟩

theorem importClause_eq (ts : TokenStream) (k stop : Nat) :
    importClause ts k stop = .ok (ImportClause.read ts k stop) := by
  unfold importClause ImportClause.read
  simp only [bracedSpecifiers_eq, ok_bind, pure_eq_ok]
  split <;> rfl

/-- What becomes of the import declaration at `i`. -/
def importDeclaration (goal : Goal) (ts : TokenStream) (temporaries i : Nat) : Checked Step := do
  let stop ← pastStatement ts i
  if isTypeImport ts (i + 1) then return ⟨[.erase i stop], stop⟩
  else if (ts.kind (i + 1)).isName && ts.kind (i + 2) == .equals then
    return ⟨importEquals goal ts i stop, stop⟩
  else
    let clause ← importClause ts (i + 1) stop
    return match clause.source?, goal.commonJs with
      | some source, true =>
        let temporary := temporaryName (ts.value source) (temporaries + 1)
        let (text, used) := requireStatements goal ts clause source temporary
        ⟨(if used then [.useTemporary] else []) ++ [.replace i stop text], stop⟩
      | none, true => ⟨[.claim i stop], stop⟩
      | _, false => ⟨Specifier.eraseTypes clause.specifiers ++ [.claim i stop], stop⟩

theorem importDeclaration_eq (goal : Goal) (ts : TokenStream) (temporaries i : Nat) :
    importDeclaration goal ts temporaries i =
      .ok (Emit.importDeclaration goal ts temporaries i) := by
  unfold importDeclaration Emit.importDeclaration
  simp only [pastStatement_eq, importClause_eq, ok_bind, pure_eq_ok]
  split
  · rfl
  split
  · rfl
  · cases (ImportClause.read ts (i + 1) (ts.pastStatement i)).source? <;>
      cases goal.commonJs <;> rfl

/-! ## Export declarations -/

/-- The export list at `i`, whose statement ends at `stop`. -/
def exportList (goal : Goal) (ts : TokenStream) (temporaries i stop : Nat) :
    Checked (List Change) := do
  let close := (← matching? ts (i + 1)).getD stop
  let source? := if ImportClause.isFromClause ts (close + 1) then some (close + 2) else none
  let names := Specifier.values ts (← specifiers ts (i + 2) close)
  let specifier := source?.elim "" ts.value
  let (text, used) := exportListStatements goal ts names source?
    (temporaryName specifier (temporaries + 1))
  return (if used then [.useTemporary] else []) ++ [.replace i stop text]

theorem exportList_eq (goal : Goal) (ts : TokenStream) (temporaries i stop : Nat) :
    exportList goal ts temporaries i stop = .ok (Emit.exportList goal ts temporaries i stop) := by
  unfold exportList
  simp only [matching?_eq, specifiers_eq, ok_bind]
  rfl

/-- What becomes of an export without ES modules.  The assignments for variables go behind the last
token of their statement. -/
def exportCommonJs (goal : Goal) (ts : TokenStream) (temporaries i : Nat) : Checked Step := do
  let next := i + 1
  match ts.kind next with
  | .kwConst | .kwLet | .kwVar =>
    let stop ← pastStatement ts next
    let names := (← declaratorNames ts true (next + 1) stop).map Binding.name
    let text := String.join (names.map fun name => " " ++ exportAs name name)
    let final ← sub stop 1
    return ⟨[.erase i next, .insertAfter final text], next⟩
  | .lbrace =>
    let stop ← pastStatement ts i
    return ⟨← exportList goal ts temporaries i stop, stop⟩
  | .star =>
    let stop ← pastStatement ts i
    return ⟨exportStar goal ts temporaries i stop, stop⟩
  | _ => return Emit.exportCommonJs goal ts temporaries i

theorem exportCommonJs_eq (goal : Goal) (ts : TokenStream) (temporaries i : Nat) :
    exportCommonJs goal ts temporaries i = .ok (Emit.exportCommonJs goal ts temporaries i) := by
  have hstop : 1 ≤ ts.pastStatement (i + 1) :=
    Nat.le_trans (Nat.le_add_left 1 i) (Nat.le_add_right ..)
  unfold exportCommonJs
  simp only [pastStatement_eq, declaratorNames_eq, ← ofStatement_eq, exportList_eq,
    sub_eq_ok hstop, ok_bind, pure_eq_ok]
  unfold Emit.exportCommonJs
  split <;> simp only [*]

/-- What becomes of an export with ES modules. -/
def exportEsModule (ts : TokenStream) (i : Nat) : Checked Step := do
  let next := i + 1
  let stop ← pastStatement ts i
  match ts.kind next with
  | .lbrace =>
    let close := (← matching? ts next).getD stop
    return ⟨Specifier.eraseTypes (← specifiers ts (next + 1) close) ++ [.claim i stop], stop⟩
  | .star => return ⟨[.claim i stop], stop⟩
  | _ => return ⟨[], next⟩

theorem exportEsModule_eq (ts : TokenStream) (i : Nat) :
    exportEsModule ts i = .ok (Emit.exportEsModule ts i) := by
  unfold exportEsModule Emit.exportEsModule
  simp only [pastStatement_eq, matching?_eq, specifiers_eq, ok_bind, pure_eq_ok]
  split <;> simp only [*]

/-- What becomes of the export declaration at `i`. -/
def exportDeclaration (goal : Goal) (ts : TokenStream) (temporaries i : Nat) : Checked Step :=
  match (typeExportEnd? ts i).or ((functionWord? ts (i + 1)).bind (overloadEnd? ts)) with
  | some stop => return ⟨[.erase i stop], stop⟩
  | none =>
    if goal.commonJs then exportCommonJs goal ts temporaries i else exportEsModule ts i

theorem exportDeclaration_eq (goal : Goal) (ts : TokenStream) (temporaries i : Nat) :
    exportDeclaration goal ts temporaries i =
      .ok (Emit.exportDeclaration goal ts temporaries i) := by
  unfold exportDeclaration Emit.exportDeclaration
  rw [exportCommonJs_eq, exportEsModule_eq]
  cases (typeExportEnd? ts i).or ((functionWord? ts (i + 1)).bind (overloadEnd? ts)) with
  | some stop => rfl
  | none =>
    simp only
    split <;> rfl

/-! ## The depth of a token -/

/-- How many brackets are open at each token of a stream, if `depth` are open before it.  At a
closing bracket its own one counts no more. -/
def depths (depth : Nat) : TokenStream → List Nat
  | [] => []
  | t :: rest =>
    let behind := depthAfter depth t.kind
    (if t.kind.isCloser then behind else depth) :: depths behind rest

theorem length_depths (depth : Nat) (ts : TokenStream) : (depths depth ts).length = ts.length := by
  induction ts generalizing depth with
  | nil => rfl
  | cons t rest ih => exact congrArg (· + 1) (ih _)

theorem getElem?_depths (depth : Nat) (hi : i < ts.length)
    (hkind : (ts.kind i).isCloser = false) :
    (depths depth ts)[i]? =
      some ((ts.take i).foldl (fun depth t => depthAfter depth t.kind) depth) := by
  induction ts generalizing i depth with
  | nil => exact absurd hi (Nat.not_lt_zero i)
  | cons t rest ih =>
    rw [depths]
    cases i with
    | zero =>
      have hkind : t.kind.isCloser = false := hkind
      rw [List.getElem?_cons_zero, hkind]
      rfl
    | succ i =>
      rw [List.getElem?_cons_succ, List.take_succ_cons, List.foldl_cons]
      exact ih _ (Nat.lt_of_succ_lt_succ hi) hkind

/-- Whether no bracket is open at token `i`. -/
def isTopLevel (ts : TokenStream) (i : Nat) : Checked Bool := do
  let depth ← entry (depths 0 ts)[i]?
  return depth == 0

/-- Every token has a depth.  It is the number of brackets that are open, but for closing ones. -/
theorem exists_isTopLevel (hi : i < ts.length) : ∃ topLevel, isTopLevel ts i = .ok topLevel ∧
    ((ts.kind i).isCloser = false → topLevel = (depthAt ts i == 0)) := by
  have hdepth : i < (depths 0 ts).length := by rwa [length_depths]
  refine ⟨(depths 0 ts)[i] == 0, ?_, fun hkind => ?_⟩
  · rw [isTopLevel, List.getElem?_eq_getElem hdepth]
    rfl
  · have hget := getElem?_depths 0 hi hkind
    rw [List.getElem?_eq_getElem hdepth] at hget
    rw [Option.some.inj hget]
    rfl

/-! ## Visits -/

/-- What is proposed for the token at `i`. -/
def visit (goal : Goal) (ts : TokenStream) (d : Draft) (i : Nat) : Checked Step := do
  let topLevel ← isTopLevel ts i
  let atStart ← startsStatement ts i
  let next := ts.kind (i + 1)
  let pass := Step.proposing [] i
  match ts.kind i with
  | .kwImport =>
    if atStart && topLevel && next != .lparen && next != .dot then
      importDeclaration goal ts d.temporaries i
    else return pass
  | .kwExport =>
    if atStart && topLevel then exportDeclaration goal ts d.temporaries i else return pass
  | .kwDeclare =>
    if atStart && !ts.lineBefore (i + 1) && startsDeclaration next then
      return .erasing i (← pastStatement ts i)
    else return pass
  | .lbrace =>
    if d.classBodies.contains i then return .proposing (← classBody ts i) i else return pass
  | .lparen =>
    if ← isParameterList ts i then return .proposing (← parameters ts i) i else return pass
  | .lt =>
    match ← typeArguments? ts i with
    | some stop => return .erasing i stop
    | none => return pass
  | .kwVar | .kwLet | .kwConst => return .proposing (← declarators ts i) i
  | .kwAs | .kwSatisfies =>
    if ← isTypeAssertion ts i then return .erasing i (typeAssertionEnd ts i) else return pass
  | .bang => if ← isNonNullAssertion ts i then return .erasing i (i + 1) else return pass
  | _ => return Emit.visit goal ts d i

/-- **A visit meets no fault,** whatever the stream is. -/
theorem visit_eq (goal : Goal) (d : Draft) (hi : i < ts.length) :
    visit goal ts d i = .ok (Emit.visit goal ts d i) := by
  obtain ⟨topLevel, htop, hdepth⟩ := exists_isTopLevel hi
  unfold visit
  rw [htop]
  simp only [startsStatement_eq, importDeclaration_eq, exportDeclaration_eq, pastStatement_eq,
    classBody_eq, isParameterList_eq, parameters_eq, typeArguments?_eq, declarators_eq,
    isTypeAssertion_eq, isNonNullAssertion_eq, ok_bind, pure_eq_ok]
  unfold Emit.visit
  cases hkind : ts.kind i with
  | kwImport =>
    obtain rfl := hdepth (by rw [hkind]; rfl)
    simp only
    split <;> rfl
  | kwExport =>
    obtain rfl := hdepth (by rw [hkind]; rfl)
    simp only
    split <;> rfl
  | lt =>
    simp only
    cases Emit.typeArguments? ts i <;> rfl
  | kwDeclare | lbrace | lparen | kwAs | kwSatisfies | bang =>
    simp only
    split <;> rfl
  | _ => rfl

end TypeScriptEngine.Checked
