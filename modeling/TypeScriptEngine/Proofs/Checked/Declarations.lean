import TypeScriptEngine.Check.Scopes
import TypeScriptEngine.Proofs.Checked.Navigation

/-! # Declared names and scopes

The names of declarators are read off the tokens by index, up to the end of their statement, and the
scopes of a text are kept on a stack.  Each turn of these loops moves on, and the stack is never
taken from when only the scope of the whole text is left (`scopes_eq`).
-/

namespace TypeScriptEngine.Checked

open TokenStream Check

variable {ts rest : TokenStream} {i : Nat}

/-- The names that the declarators from `i` up to `stop` bind. -/
def declaratorNames (ts : TokenStream) (expectName : Bool) (i stop : Nat) :
    Checked (List Binding) := do
  if i < stop then
    if (ts.kind i).isOpener then
      match ← matching? ts i with
      | some close =>
        if i < close + 1 then declaratorNames ts false (close + 1) stop else .error .standstill
      | none => return []
    else if ts.kind i = .lt then
      let close := (← matchingAngle? ts i).getD i
      if i < close + 1 then declaratorNames ts false (close + 1) stop else .error .standstill
    else if ts.kind i = .comma then declaratorNames ts true (i + 1) stop
    else if expectName && (ts.kind i).isName then
      return (ts[i]?.map Binding.ofToken).toList ++ (← declaratorNames ts false (i + 1) stop)
    else declaratorNames ts false (i + 1) stop
  else return []
termination_by stop - i

/-- Past the end of the stream there are no names. -/
theorem ofDeclarators_nil (expectName : Bool) (n : Nat) :
    Binding.ofDeclarators expectName n [] = [] := by
  cases n with
  | zero => rw [Binding.ofDeclarators]
  | succ n =>
    rw [Binding.ofDeclarators]
    exact Nat.succ_ne_zero n

theorem declaratorNames_eq (ts : TokenStream) (expectName : Bool) (i stop : Nat) :
    declaratorNames ts expectName i stop =
      .ok (Binding.ofDeclarators expectName (stop - i) (ts.drop i)) := by
  induction hn : stop - i using Nat.strong_induction_on generalizing i expectName with
  | _ n ih =>
    subst hn
    rw [declaratorNames]
    split
    · rename_i hi
      -- the loop goes on behind the token, or behind the brackets that close `c` tokens later
      have hnext (expectName : Bool) (c : Nat) :
          declaratorNames ts expectName (i + c + 1) stop =
            .ok (Binding.ofDeclarators expectName (stop - (i + 1) - c)
              ((ts.drop (i + 1)).drop c)) := by
        rw [ih _ (by omega) _ _ rfl, Nat.add_right_comm, Nat.sub_sub, List.drop_drop]
      have hone (expectName : Bool) : declaratorNames ts expectName (i + 1) stop =
          .ok (Binding.ofDeclarators expectName (stop - (i + 1)) (ts.drop (i + 1))) :=
        hnext expectName 0
      have hturn (c : Nat) : i < i + c + 1 := by omega
      rw [show stop - i = stop - (i + 1) + 1 by omega]
      cases hdrop : ts.drop i with
      | nil =>
        have hkind : ts.kind i = .eof := by rw [kind_eq_headKind_drop, hdrop]; rfl
        have hrest : ts.drop (i + 1) = [] := by rw [← List.drop_drop, hdrop]; rfl
        rw [hrest] at hone
        simp only [hkind, hone, ofDeclarators_nil]
        cases expectName <;> rfl
      | cons t rest =>
        obtain ⟨hlt, hkind, hrest⟩ := of_drop_eq_cons hdrop
        have hget : ts[i]? = some t := by rw [← List.head?_drop, hdrop]; rfl
        rw [hrest] at hone hnext
        rw [Binding.ofDeclarators]
        simp only [hkind, hget, matching?_eq, matchingAngle?_eq, TokenStream.matching?,
          TokenStream.matchingAngle?, hdrop, ok_bind, hone, pure_eq_ok]
        split
        · cases bracketSpan? (t :: rest) with
          | none => rfl
          | some c =>
            simp only [Option.map_some, if_pos (hturn c)]
            exact hnext false c
        split
        · cases angleSpan? (t :: rest) with
          | none =>
            simp only [Option.map_none, Option.getD_none, if_pos (hturn 0)]
            exact hnext false 0
          | some c =>
            simp only [Option.map_some, Option.getD_some, if_pos (hturn c)]
            exact hnext false c
        split
        · rfl
        split
        · rfl
        · rfl
    · rw [Nat.sub_eq_zero_of_le (by omega)]
      cases ts.drop i <;> rw [Binding.ofDeclarators] <;> rfl

/-- The names of a variable statement are those up to its end. -/
theorem ofStatement_eq (ts : TokenStream) (i : Nat) :
    Binding.ofStatement (ts.drop i) =
      Binding.ofDeclarators true (ts.pastStatement i - (i + 1)) (ts.drop (i + 1)) := by
  rw [Binding.ofStatement, TokenStream.pastStatement, Nat.add_sub_add_left, List.drop_drop]

/-- The scopes from token `i` on. -/
def scopesFrom (ts : TokenStream) (current : Scope) (around : List Scope) (i : Nat) :
    Checked (List Scope) := do
  if i < ts.length then
    match ts.kind i with
    | .lbrace => scopesFrom ts ⟨false, [], 0⟩ (current :: around) (i + 1)
    | .rbrace =>
      match around with
      | [] => scopesFrom ts current [] (i + 1)
      | outer :: around => return current :: (← scopesFrom ts outer around (i + 1))
    | .lparen | .lbracket =>
      scopesFrom ts { current with nesting := current.nesting + 1 } around (i + 1)
    | .rparen | .rbracket =>
      -- this difference is meant to stop at zero
      scopesFrom ts { current with nesting := current.nesting - 1 } around (i + 1)
    | .kwLet | .kwConst =>
      if (ts.kind (i + 1)).isName ∧ current.nesting = 0 then
        let stop ← pastStatement ts i
        let names ← declaratorNames ts true (i + 1) stop
        scopesFrom ts { current with names := current.names ++ names } around (i + 1)
      else scopesFrom ts current around (i + 1)
    | _ => scopesFrom ts current around (i + 1)
  else return (current :: around).reverse
termination_by ts.length - i

theorem scopesFrom_eq {current : Scope} {around : List Scope} (h : ts.drop i = rest) :
    scopesFrom ts current around i = .ok (Check.scopesFrom current around rest) := by
  induction rest generalizing i current around with
  | nil => rw [scopesFrom.eq_def, if_neg (length_le_of_drop_eq_nil h)]; rfl
  | cons t rest ih =>
    obtain ⟨hlt, hkind, hrest⟩ := of_drop_eq_cons h
    have hnames := ofStatement_eq ts i
    rw [h, hrest] at hnames
    rw [scopesFrom.eq_def, if_pos hlt, hkind, Check.scopesFrom.eq_def]
    simp only [pastStatement_eq, declaratorNames_eq, ok_bind, ih hrest,
      kind_eq_headKind_drop ts (i + 1), hrest, hnames]
    cases t.kind with
    | rbrace =>
      cases around with
      | nil => rfl
      | cons outer around => rfl
    | kwLet | kwConst =>
      simp only
      split <;> rfl
    | _ => rfl

/-- **Collecting the scopes of a text meets no fault.** -/
theorem scopes_eq (ts : TokenStream) :
    scopesFrom ts ⟨true, [], 0⟩ [] 0 = .ok (Check.scopes ts) :=
  scopesFrom_eq rfl

/-- The redeclarations in a file. -/
def redeclarations (ts : TokenStream) (isAmbient : String → Bool) : Checked (List Finding) := do
  let isAmbient := if ← isModule ts then fun _ => false else isAmbient
  let scopes ← scopesFrom ts ⟨true, [], 0⟩ [] 0
  return scopes.flatMap fun s => (s.redeclared isAmbient).map fun b => ⟨.redeclared b.name, b.span⟩

theorem redeclarations_eq (ts : TokenStream) (isAmbient : String → Bool) :
    redeclarations ts isAmbient = .ok (Check.redeclarations ts isAmbient) := by
  rw [redeclarations, isModule_eq, ok_bind, scopes_eq]
  rfl

end TypeScriptEngine.Checked
