import TypeScriptEngine.Emit.Program
import TypeScriptEngine.Proofs.Checked.Navigation

/-! # Proposals for classes, parameters and variables

What a visit proposes is found by loops over the tokens of a construct.  Each turn of such a loop
moves on, even where a bracket is closed outside the construct or not at all, and the tokens that
are looked back at are there.
-/

namespace TypeScriptEngine.Checked

open TokenStream Emit

variable {ts : TokenStream} {i k stop close : Nat}

/-! ## Class members -/

/-- The index behind the token at `k` of a class member, or behind its bracket. -/
def pastMemberToken (ts : TokenStream) (k close : Nat) : Nat :=
  match ts.kind k with
  | .lparen | .lbracket => ts.pastBracket k close
  | .lt => pastAngle ts k
  | _ => k + 1

theorem lt_pastMemberToken (hk : k < close) : k < pastMemberToken ts k close := by
  unfold pastMemberToken
  split
  · exact lt_pastBracket ts k close hk
  · exact lt_pastBracket ts k close hk
  · exact lt_pastAngle ts k
  · exact Nat.lt_succ_self k

/-- Whether a member ends before token `k`, at a line break. -/
def endsBefore (ts : TokenStream) (k close : Nat) : Checked Bool :=
  if k < close ∧ ts.lineBefore k then do
    let last ← sub k 1
    return ts.endsExpression last && !(ts.kind k).continuesExpression
  else return false

theorem endsBefore_eq (hk : 0 < k) (close : Nat) :
    endsBefore ts k close = .ok (decide (k < close ∧ ts.lineBefore k ∧ ts.endsExpression (k - 1) ∧
      !(ts.kind k).continuesExpression)) := by
  unfold endsBefore
  rw [sub_eq_ok hk]
  by_cases hline : k < close ∧ ts.lineBefore k
  · rw [if_pos hline, ok_bind, pure_eq_ok]
    simp [hline]
  · rw [if_neg hline]
    simp only [← and_assoc, hline]
    simp

/-- The index behind the class member at `k`, in a class that is closed at `close`. -/
def memberEnd (ts : TokenStream) (k close : Nat) : Checked Nat :=
  if k < close then
    if ts.kind k = .lbrace then return ts.pastBracket k close
    else if ts.kind k = .semicolon then return k + 1
    else do
      let next := pastMemberToken ts k close
      if ← endsBefore ts next close then return next
      else if k < next then memberEnd ts next close
      else .error .standstill
  else return close
termination_by close - k

/-- One turn of the loop moves on, so that it needs no test for it. -/
theorem memberEnd_step (hk : k < close) (hbrace : ts.kind k ≠ .lbrace)
    (hsemicolon : ts.kind k ≠ .semicolon) :
    Emit.memberEnd ts k close =
      if pastMemberToken ts k close < close ∧ ts.lineBefore (pastMemberToken ts k close) ∧
          ts.endsExpression (pastMemberToken ts k close - 1) ∧
          !(ts.kind (pastMemberToken ts k close)).continuesExpression then
        pastMemberToken ts k close
      else Emit.memberEnd ts (pastMemberToken ts k close) close := by
  have hlt := @lt_pastMemberToken ts _ _ hk
  rw [Emit.memberEnd, if_pos hk]
  split
  · contradiction
  · contradiction
  · change (if _ then _ else if k < pastMemberToken ts k close then _ else _) = _
    rw [if_pos hlt]
    rfl

theorem memberEnd_eq (ts : TokenStream) (k close : Nat) :
    memberEnd ts k close = .ok (Emit.memberEnd ts k close) := by
  induction hn : close - k using Nat.strong_induction_on generalizing k with
  | _ n ih =>
    subst hn
    rw [memberEnd]
    split
    · rename_i hk
      split
      · rename_i hbrace
        rw [Emit.memberEnd, if_pos hk, hbrace]
        rfl
      split
      · rename_i hsemicolon
        rw [Emit.memberEnd, if_pos hk, hsemicolon]
        rfl
      rename_i hbrace hsemicolon
      have hlt := @lt_pastMemberToken ts _ _ hk
      rw [memberEnd_step hk hbrace hsemicolon]
      generalize pastMemberToken ts k close = next at hlt ⊢
      have hnext := ih (close - next) (by omega) next rfl
      simp only [endsBefore_eq (Nat.zero_lt_of_lt hlt), ok_bind, if_pos hlt, hnext,
        decide_eq_true_eq]
      split <;> rfl
    · rename_i hk
      rw [Emit.memberEnd, if_neg hk]
      rfl

/-- The changes of the class members from `k` on. -/
def classMembers (ts : TokenStream) (k close : Nat) : Checked (List Change) :=
  if k < close then
    if ts.kind k = .semicolon then classMembers ts (k + 1) close
    else do
      let stop ← memberEnd ts k close
      return classMember ts k stop ++ (← classMembers ts (max stop (k + 1)) close)
  else return []
termination_by close - k

theorem classMembers_eq (ts : TokenStream) (k close : Nat) :
    classMembers ts k close = .ok (Emit.classMembers ts k close) := by
  fun_induction Emit.classMembers ts k close with
  | case1 k hk hsemicolon ih => rw [classMembers, if_pos hk, if_pos hsemicolon, ih]
  | case2 k hk hsemicolon stop ih =>
    rw [classMembers, if_pos hk, if_neg hsemicolon, memberEnd_eq, ok_bind, ih]
    rfl
  | case3 k hk => rw [classMembers, if_neg hk]; rfl

/-- The changes in the body of the class whose brace is at `i`. -/
def classBody (ts : TokenStream) (i : Nat) : Checked (List Change) :=
  match ts.matching? i with
  | some close => classMembers ts (i + 1) close
  | none => return []

theorem classBody_eq (ts : TokenStream) (i : Nat) : classBody ts i = .ok (Emit.classBody ts i) := by
  unfold classBody Emit.classBody
  cases ts.matching? i with
  | none => rfl
  | some close => exact classMembers_eq ts _ _

/-! ## Parameters and variables -/

/-- The index behind the next comma from `k` on, outside brackets and before `stop`. -/
def pastComma? (ts : TokenStream) (k stop : Nat) : Checked (Option Nat) :=
  if k < stop then
    if ts.kind k = .comma then return some (k + 1)
    else if (ts.kind k).isOpener then
      if k < ts.pastBracket k stop then pastComma? ts (ts.pastBracket k stop) stop
      else .error .standstill
    else pastComma? ts (k + 1) stop
  else return none
termination_by stop - k

theorem pastComma?_eq (ts : TokenStream) (k stop : Nat) :
    pastComma? ts k stop = .ok (Emit.pastComma? ts k stop) := by
  induction hn : stop - k using Nat.strong_induction_on generalizing k with
  | _ n ih =>
    subst hn
    rw [pastComma?, Emit.pastComma?]
    split
    · rename_i hk
      have hlt := lt_pastBracket ts k stop hk
      have hpast := ih (stop - ts.pastBracket k stop) (by omega) _ rfl
      have hnext := ih (stop - (k + 1)) (by omega) _ rfl
      cases hkind : ts.kind k <;>
        simp only [TokenKind.isOpener, reduceCtorEq, if_true, if_false, Bool.false_eq_true,
          if_pos hlt, hpast, hnext, pure_eq_ok]
    · rfl

theorem le_parameterModifiers (ts : TokenStream) (k : Nat) : k ≤ (parameterModifiers ts k).2 := by
  fun_induction parameterModifiers ts k <;> simp_all
  omega

theorem min_le_pastBinding (ts : TokenStream) (k stop : Nat) :
    min k stop ≤ pastBinding ts k stop := by
  have hbracket : min k stop ≤ ts.pastBracket k stop := by
    unfold pastBracket
    cases hclose : ts.matching? k with
    | none => exact Nat.min_le_right ..
    | some close =>
      have := lt_of_matching? hclose
      rw [Option.elim]
      omega
  unfold pastBinding
  split
  · exact hbracket
  · exact hbracket
  · split <;> omega

theorem le_mark (ts : TokenStream) (kind : TokenKind) (k : Nat) : k ≤ (mark ts kind k).2 := by
  unfold mark
  split
  · exact Nat.le_succ k
  · exact Nat.le_refl k

theorem min_le_annotationAt (ts : TokenStream) (k stop : Nat) :
    min k stop ≤ (annotationAt ts k stop).2 := by
  unfold annotationAt
  split
  · have : k + 1 ≤ ts.pastType (k + 1) := Nat.le_add_right ..
    simp only
    omega
  · exact Nat.min_le_left ..

theorem min_le_parameter (ts : TokenStream) (k close : Nat) :
    min k close ≤ (parameter ts k close).2 := by
  let name := if ts.kind k = .ellipsis then k + 1 else k
  let binding := pastBinding ts name close
  have hname : k ≤ name := by
    simp only [name]
    split <;> omega
  have hbinding : min name close ≤ binding := min_le_pastBinding ts name close
  have hmark : binding ≤ (mark ts .question binding).2 := le_mark ts .question binding
  have hannotation := min_le_annotationAt ts (mark ts .question binding).2 close
  show min k close ≤ (annotationAt ts (mark ts .question binding).2 close).2
  omega

theorem lt_pastReceiver {k' : Nat} (hk : k < close) (hle : k ≤ k') :
    k < pastReceiver ts k' close := by
  have : k' + 2 ≤ ts.pastType (k' + 2) := Nat.le_add_right ..
  unfold pastReceiver
  simp only
  split <;> omega

/-- The changes of the parameters from `k` on, in a list closed at `close`. -/
def parameterList (ts : TokenStream) (k close : Nat) : Checked (List Change) :=
  if k < close then do
    let (modifiers, start) := parameterModifiers ts k
    if isReceiver ts start then
      let past := pastReceiver ts start close
      if k < past then return modifiers ++ [.erase start past] ++ (← parameterList ts past close)
      else .error .standstill
    else
      let (changes, behind) := parameter ts start close
      match ← pastComma? ts behind close with
      | some next =>
        if k < next then return modifiers ++ changes ++ (← parameterList ts next close)
        else .error .standstill
      | none => return modifiers ++ changes
  else return []
termination_by close - k

/-- **Each parameter lies behind the one before,** whatever its brackets enclose. -/
theorem parameterList_eq (ts : TokenStream) (k close : Nat) :
    parameterList ts k close = .ok (Emit.parameterList ts k close) := by
  induction hn : close - k using Nat.strong_induction_on generalizing k with
  | _ n ih =>
    subst hn
    rw [parameterList, Emit.parameterList]
    split
    · rename_i hk
      have hmodifiers := le_parameterModifiers ts k
      generalize parameterModifiers ts k = modifiers at hmodifiers ⊢
      obtain ⟨modifiers, start⟩ := modifiers
      simp only at hmodifiers ⊢
      split
      · have hlt := @lt_pastReceiver ts _ _ _ hk hmodifiers
        have hnext := ih (close - pastReceiver ts start close) (by omega) _ rfl
        simp only [if_pos hlt, hnext, ok_bind, pure_eq_ok]
      · have hparameter := min_le_parameter ts start close
        generalize parameter ts start close = changes at hparameter ⊢
        obtain ⟨changes, behind⟩ := changes
        simp only at hparameter ⊢
        rw [pastComma?_eq, ok_bind]
        cases hcomma : Emit.pastComma? ts behind close with
        | none => rfl
        | some next =>
          have hlt : k < next := by
            have := lt_of_pastComma? ts hcomma
            omega
          simp only [if_pos hlt, ih (close - next) (by omega) next rfl, ok_bind, pure_eq_ok]
    · rfl

/-- The changes of the parameter list at `i` and of the result type behind it. -/
def parameters (ts : TokenStream) (i : Nat) : Checked (List Change) := do
  match ts.matching? i with
  | none => return []
  | some close =>
    let result := if ts.kind (close + 1) = .colon then
      [Change.erase (close + 1) (ts.pastType (close + 2))] else []
    return (← parameterList ts (i + 1) close) ++ result

theorem parameters_eq (ts : TokenStream) (i : Nat) :
    parameters ts i = .ok (Emit.parameters ts i) := by
  unfold parameters Emit.parameters
  cases ts.matching? i with
  | none => rfl
  | some close => simp only [parameterList_eq, ok_bind, pure_eq_ok]

/-- The changes of the declarators from `k` on, in a statement that ends at `stop`. -/
def declaratorList (ts : TokenStream) (k stop : Nat) : Checked (List Change) :=
  if k < stop then do
    let past := pastBinding ts k stop
    let (changes, behind) :=
      if past = k then ([], k)
      else
        let (definite, past) := mark ts .bang past
        let (type, past) := annotationAt ts past stop
        (definite ++ type, past)
    match ← pastComma? ts behind stop with
    | some next =>
      if k < next then return changes ++ (← declaratorList ts next stop)
      else .error .standstill
    | none => return changes
  else return []
termination_by stop - k

theorem declaratorList_eq (ts : TokenStream) (k stop : Nat) :
    declaratorList ts k stop = .ok (Emit.declaratorList ts k stop) := by
  induction hn : stop - k using Nat.strong_induction_on generalizing k with
  | _ n ih =>
    subst hn
    rw [declaratorList, Emit.declaratorList]
    split
    · rename_i hk
      have hbehind : min k stop ≤ (if pastBinding ts k stop = k then ([], k) else
          let (definite, past) := mark ts .bang (pastBinding ts k stop)
          let (type, past) := annotationAt ts past stop
          (definite ++ type, past)).2 := by
        split
        · exact Nat.min_le_left ..
        · have hbinding := min_le_pastBinding ts k stop
          have hmark := le_mark ts .bang (pastBinding ts k stop)
          refine Nat.le_trans ?_ (min_le_annotationAt ts _ stop)
          omega
      simp only at hbehind ⊢
      generalize (if pastBinding ts k stop = k then ([], k) else _) = changes at hbehind ⊢
      obtain ⟨changes, behind⟩ := changes
      simp only at hbehind ⊢
      rw [pastComma?_eq, ok_bind]
      cases hcomma : Emit.pastComma? ts behind stop with
      | none => rfl
      | some next =>
        have hlt : k < next := by
          have := lt_of_pastComma? ts hcomma
          omega
        simp only [if_pos hlt, ih (stop - next) (by omega) next rfl, ok_bind, pure_eq_ok]
    · rfl

/-- The changes of the variable statement at `i`. -/
def declarators (ts : TokenStream) (i : Nat) : Checked (List Change) :=
  declaratorList ts (i + 1) (ts.pastStatement i)

theorem declarators_eq (ts : TokenStream) (i : Nat) :
    declarators ts i = .ok (Emit.declarators ts i) :=
  declaratorList_eq ts _ _

/-! ## Type arguments, assertions -/

/-- The index behind the angle brackets at `i` if they hold type arguments or parameters. -/
def typeArguments? (ts : TokenStream) (i : Nat) : Checked (Option Nat) :=
  return if (← back i 1).any fun k => takesTypeArguments (ts.kind k) then
    (ts.matchingAngle? i).bind fun close =>
      if ts.kind (close + 1) = .lparen then some (close + 1) else none
  else none

theorem typeArguments?_eq (ts : TokenStream) (i : Nat) :
    typeArguments? ts i = .ok (Emit.typeArguments? ts i) := by
  cases i with
  | zero => rfl
  | succ i =>
    rw [typeArguments?, back_succ]
    rfl

/-- Whether the exclamation mark at `i` asserts that a value is there. -/
def isNonNullAssertion (ts : TokenStream) (i : Nat) : Checked Bool :=
  return (← back i 1).any fun k =>
    ((ts.kind k).isName || ts.kind k == .rparen || ts.kind k == .rbracket) &&
      ts.stopOf k == ts.startOf i

theorem isNonNullAssertion_eq (ts : TokenStream) (i : Nat) :
    isNonNullAssertion ts i = .ok (Emit.isNonNullAssertion ts i) := by
  cases i with
  | zero => rfl
  | succ i =>
    rw [isNonNullAssertion, back_succ]
    rfl

/-- Whether the word at `i` gives a type to the expression before it. -/
def isTypeAssertion (ts : TokenStream) (i : Nat) : Checked Bool :=
  return (← back i 1).any fun k => ts.endsExpression k && !ts.lineBefore i

theorem isTypeAssertion_eq (ts : TokenStream) (i : Nat) :
    isTypeAssertion ts i = .ok (Emit.isTypeAssertion ts i) := by
  cases i with
  | zero => rfl
  | succ i =>
    rw [isTypeAssertion, back_succ]
    rfl

end TypeScriptEngine.Checked
