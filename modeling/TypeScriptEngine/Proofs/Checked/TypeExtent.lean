import TypeScriptEngine.Proofs.Checked.Navigation
import TypeScriptEngine.Proofs.Token.Layout

/-! # Passing over a type

The end of a type is found by index.  Operands, indices and the parts of a conditional type are
passed over by functions that call each other; each call goes on behind where the one before began,
and none behind the end of the stream (`pastType_eq`).
-/

namespace TypeScriptEngine.Checked

open TokenStream

variable {ts rest : TokenStream} {t : Token} {typeFrom : Nat → Checked Nat} {i k n start : Nat}

theorem value_of_drop_eq_cons (h : ts.drop i = t :: rest) :
    ts.value i = t.value ∧ ts.lineBefore i = t.lineBefore := by
  have hget : ts[i]? = some t := by rw [← List.head?_drop, h, List.head?_cons]
  unfold TokenStream.value TokenStream.lineBefore
  rw [hget]
  exact ⟨rfl, rfl⟩

/-! ## Indices -/

/-- The index behind the array and index brackets at `i`. -/
def pastIndices (ts : TokenStream) (i : Nat) : Checked Nat := do
  if ts.kind i = .lbracket ∧ !ts.lineBefore i then
    match ← matching? ts i with
    | some close =>
      if i < close + 1 ∧ close + 1 ≤ ts.length then pastIndices ts (close + 1)
      else .error .standstill
    | none => return ts.last
  else return i
termination_by ts.length - i

/-- A bracket and its partner are there. -/
theorem matching?_bounds {close : Nat} (h : ts.matching? i = some close) :
    i < close + 1 ∧ close + 1 ≤ ts.length := by
  have hlt := lt_of_matching? h
  have hkind := kind_of_matching? h
  refine ⟨by omega, lt_length_of_kind fun heof => ?_⟩
  rw [heof] at hkind
  cases hopen : ts.kind i <;> rw [hopen] at hkind <;> cases hkind

theorem pastIndices_eq (ts : TokenStream) (i : Nat) :
    pastIndices ts i = .ok (i + indexLength (ts.drop i)) := by
  induction hn : ts.length - i using Nat.strong_induction_on generalizing i with
  | _ n ih =>
    subst hn
    rw [pastIndices]
    cases hdrop : ts.drop i with
    | nil =>
      have hkind : ts.kind i = .eof := by rw [kind_eq_headKind_drop, hdrop]; rfl
      rw [hkind, indexLength]
      rfl
    | cons t rest =>
      obtain ⟨hlt, hkind, hrest⟩ := of_drop_eq_cons hdrop
      have hline := (value_of_drop_eq_cons hdrop).2
      have hlength := congrArg List.length hdrop
      rw [List.length_drop, List.length_cons] at hlength
      rw [indexLength, hkind, hline, matching?_eq, ok_bind]
      simp only [Bool.and_eq_true, decide_eq_true_eq]
      split
      · cases hclose : ts.matching? i with
        | none =>
          have hspan : bracketSpan? (t :: rest) = none := by
            rw [← hdrop]
            exact Option.map_eq_none_iff.mp hclose
          rw [hspan]
          simp only [pure_eq_ok, last]
          congr 1
          omega
        | some close =>
          obtain ⟨n, hspan, rfl⟩ := Option.map_eq_some_iff.mp hclose
          have hbounds := matching?_bounds hclose
          rw [hdrop] at hspan
          simp only [hspan, if_pos hbounds]
          rw [ih _ (by omega) _ rfl, ← hrest, List.drop_drop, Nat.add_right_comm i n 1]
          congr 1
          omega
      · rfl

/-! ## Operands -/

/-- A function passes over the types that begin behind `i`. -/
def PassesBehind (ts : TokenStream) (typeFrom : Nat → Checked Nat) (i : Nat) : Prop :=
  ∀ j, i < j → j ≤ ts.length → typeFrom j = .ok (j + typeLength (ts.drop j))

/-- The index behind the arrow at `i` and its result, or behind the indices at `i`. -/
def pastArrow (ts : TokenStream) (typeFrom : Nat → Checked Nat) (i : Nat) : Checked Nat :=
  if ts.kind i = .arrow then typeFrom (i + 1) else pastIndices ts i

theorem pastArrow_eq (h : PassesBehind ts typeFrom start) (hi : start ≤ i) :
    pastArrow ts typeFrom i = .ok (i + arrowLength (ts.drop i)) := by
  unfold pastArrow
  cases hdrop : ts.drop i with
  | nil =>
    rw [kind_eq_headKind_drop, hdrop, if_neg (by decide), pastIndices_eq, hdrop, arrowLength,
      indexLength]
  | cons t rest =>
    obtain ⟨hlt, hkind, hrest⟩ := of_drop_eq_cons hdrop
    have hnext := h (i + 1) (by omega) hlt
    rw [arrowLength, hkind]
    split
    · rw [hnext, hrest, Nat.add_assoc]
    · rw [pastIndices_eq, hdrop]

/-- The index behind the type predicate at `i`, or behind the indices at `i`. -/
def pastPredicate (ts : TokenStream) (typeFrom : Nat → Checked Nat) (i : Nat) : Checked Nat :=
  if ts.kind i = .identifier ∧ ts.value i = "is" ∧ !ts.lineBefore i then typeFrom (i + 1)
  else pastIndices ts i

theorem pastPredicate_eq (h : PassesBehind ts typeFrom start) (hi : start ≤ i) :
    pastPredicate ts typeFrom i = .ok (i + predicateLength (ts.drop i)) := by
  unfold pastPredicate
  cases hdrop : ts.drop i with
  | nil =>
    have hkind : ts.kind i = .eof := by rw [kind_eq_headKind_drop, hdrop]; rfl
    rw [if_neg (by simp [hkind]), pastIndices_eq, hdrop, predicateLength, indexLength]
  | cons t rest =>
    obtain ⟨hlt, hkind, hrest⟩ := of_drop_eq_cons hdrop
    obtain ⟨hvalue, hline⟩ := value_of_drop_eq_cons hdrop
    have hnext := h (i + 1) (by omega) hlt
    rw [predicateLength, hkind, hvalue, hline]
    split
    · rw [hnext, hrest, Nat.add_assoc]
    · rw [pastIndices_eq, hdrop]

/-- The index behind the name at `i`, its members, its type arguments and what may follow them. -/
def nameEnd (ts : TokenStream) (typeFrom : Nat → Checked Nat) (i : Nat) : Checked Nat := do
  let k := i + dottedLength (ts.drop i)
  match ← matchingAngle? ts k with
  | none => pastPredicate ts typeFrom k
  | some close => pastPredicate ts typeFrom (close + 1)

theorem nameEnd_eq (h : PassesBehind ts typeFrom start) (hi : start ≤ i)
    (hdrop : ts.drop i = t :: rest) (hname : t.kind.isName = true) :
    let n := dottedLength (t :: rest)
    let m := (angleSpan? ((t :: rest).drop n)).elim 0 (· + 1)
    nameEnd ts typeFrom i = .ok (i + (n + m + predicateLength (rest.drop (n + m - 1)))) := by
  have hbehind (n : Nat) : ts.drop (i + n + 1) = rest.drop n := by
    rw [← (of_drop_eq_cons hdrop).2.2, List.drop_drop, Nat.add_right_comm]
  have hpredicate (n : Nat) := pastPredicate_eq h (show start ≤ i + n + 1 by omega)
  simp only [hbehind] at hpredicate
  -- a name has at least one token
  have hdotted : dottedLength (t :: rest) = memberLength rest + 1 := by
    rw [dottedLength, if_pos hname]
  simp only [nameEnd, hdrop, hdotted, List.drop_succ_cons, matchingAngle?_eq, ok_bind]
  generalize memberLength rest = d
  rw [← Nat.add_assoc, TokenStream.matchingAngle?, hbehind]
  cases angleSpan? (rest.drop d) with
  | none =>
    simp only [Option.map_none, Option.elim_none, hpredicate, Nat.add_zero, Nat.add_sub_cancel]
    congr 1
    omega
  | some m =>
    have hpredicate := hpredicate (d + 1 + m)
    simp only [Option.map_some, Option.elim_some]
    rw [show i + d + 1 + m + 1 = i + (d + 1 + m) + 1 by omega, hpredicate,
      show d + 1 + (m + 1) - 1 = d + 1 + m by omega]
    congr 1
    omega

/-- The index behind the operand at `start`, or `start` if there is none. -/
def operandEnd (ts : TokenStream) (typeFrom : Nat → Checked Nat) (start : Nat) : Checked Nat := do
  let i := start + typeOperators (ts.drop start)
  if ts.kind i = .kwTypeof then
    pastIndices ts (i + 1 + dottedLength (ts.drop (i + 1)))
  else if ts.kind i = .lparen then
    match ← matching? ts i with
    | none => return ts.last
    | some close => pastArrow ts typeFrom (close + 1)
  else if ts.kind i = .lt then
    match ← matchingAngle? ts i with
    | none => return start
    | some close =>
      match ← matching? ts (close + 1) with
      | none => return start
      | some close => pastArrow ts typeFrom (close + 1)
  else if ts.kind i = .lbrace ∨ ts.kind i = .lbracket then
    match ← matching? ts i with
    | none => return ts.last
    | some close => pastIndices ts (close + 1)
  else if isLiteralType (ts.kind i) then pastIndices ts (i + 1)
  else if ts.kind i = .templateHead then pastIndices ts (i + templateLength (ts.drop i))
  else if ts.kind i = .operator ∧ ts.value i = "-" ∧ ts.kind (i + 1) = .numberLiteral then
    pastIndices ts (i + 2)
  else if (ts.kind i).isName then nameEnd ts typeFrom i
  else return start

theorem operandEnd_eq (h : PassesBehind ts typeFrom start) :
    operandEnd ts typeFrom start = .ok (start + operandLength (ts.drop start)) := by
  unfold operandEnd
  generalize hk : typeOperators (ts.drop start) = k
  cases hdrop : ts.drop (start + k) with
  | nil =>
    have hkind : ts.kind (start + k) = .eof := by rw [kind_eq_headKind_drop, hdrop]; rfl
    rw [operandLength_of_drop_nil hk (by rw [List.drop_drop, hdrop])]
    simp [hkind, isLiteralType, TokenKind.isName, TokenKind.isContextual]
  | cons t rest =>
    obtain ⟨hlt, hkind, hrest⟩ := of_drop_eq_cons hdrop
    have hvalue := (value_of_drop_eq_cons hdrop).1
    have hlast : ts.last = start + ((ts.drop start).length - 1) := by
      rw [last, List.length_drop]
      omega
    -- what lies `n` tokens behind the token at the head of the operand
    have hbehind (n : Nat) : ts.drop (start + k + n + 1) = rest.drop n := by
      rw [← hrest, List.drop_drop, Nat.add_right_comm]
    have hfrom (n : Nat) : ts.drop (start + k + n) = (t :: rest).drop n := by
      rw [← hdrop, List.drop_drop]
    have harrow (n : Nat) := pastArrow_eq h (show start ≤ start + k + n + 1 by omega)
    simp only [hbehind] at harrow
    rw [operandLength_of_drop hk (by rw [List.drop_drop, hdrop])]
    simp only [hkind, hvalue, hdrop, hrest, kind_eq_headKind_drop ts (start + k + 1),
      matching?_eq, matchingAngle?_eq, TokenStream.matching?, TokenStream.matchingAngle?, ok_bind,
      pastIndices_eq]
    split
    · rw [Nat.add_right_comm (start + k) 1, hbehind]
      congr 1
      omega
    split
    · cases bracketSpan? (t :: rest) with
      | none => exact congrArg Except.ok hlast
      | some n =>
        simp only [Option.map_some, harrow]
        congr 1
        omega
    split
    · cases angleSpan? (t :: rest) with
      | none => rfl
      | some n =>
        simp only [Option.map_some, hbehind]
        cases bracketSpan? (rest.drop n) with
        | none => rfl
        | some m =>
          have harrow := harrow (n + 1 + m)
          simp only [Option.map_some, List.drop_drop]
          rw [show start + k + n + 1 + m + 1 = start + k + (n + 1 + m) + 1 by omega, harrow,
            show n + 1 + m = n + (m + 1) by omega]
          congr 1
          omega
    split
    · cases bracketSpan? (t :: rest) with
      | none => exact congrArg Except.ok hlast
      | some n =>
        simp only [Option.map_some, hbehind]
        congr 1
        omega
    split
    · congr 1
      omega
    split
    · rw [hfrom]
      congr 1
      omega
    split
    · rw [show start + k + 2 = start + k + 1 + 1 from rfl, hbehind]
      congr 1
      omega
    split
    · rename_i hname
      rw [nameEnd_eq h (Nat.le_add_right start k) hdrop hname]
      congr 1
      omega
    · rfl

/-! ## Types -/

theorem PassesBehind.mono (h : PassesBehind ts typeFrom start) (hi : start ≤ i) :
    PassesBehind ts typeFrom i :=
  fun j hj => h j (Nat.lt_of_le_of_lt hi hj)

/-- The index behind a conditional type, of which `i` is the index behind its word `extends`. -/
def conditionalEnd (ts : TokenStream) (typeFrom : Nat → Checked Nat) (i : Nat) : Checked Nat := do
  let mark ← typeFrom i
  if ts.kind mark = .question then
    let mark ← typeFrom (mark + 1)
    if ts.kind mark = .colon then typeFrom (mark + 1) else return mark
  else return mark

theorem conditionalEnd_eq (h : PassesBehind ts typeFrom start) (hi : start < i)
    (hlen : i ≤ ts.length) :
    conditionalEnd ts typeFrom i = .ok (i + conditionalLength (ts.drop i)) := by
  generalize hn : typeLength (ts.drop i) = n
  generalize hm : typeLength ((ts.drop i).drop (n + 1)) = m
  rw [conditionalEnd, h i hi hlen, ok_bind, conditionalLength_eq _ hn hm, hn, List.drop_drop,
    ← kind_eq_headKind_drop]
  rw [List.drop_drop, ← Nat.add_assoc] at hm
  split
  · rename_i hquestion
    have hlt : i + n < ts.length := lt_length_of_kind (by rw [hquestion]; decide)
    rw [h (i + n + 1) (by omega) hlt, ok_bind, hm, List.drop_drop, ← kind_eq_headKind_drop,
      ← Nat.add_assoc i, ← Nat.add_assoc i]
    split
    · rename_i hcolon
      have hlt' : i + n + 1 + m < ts.length := lt_length_of_kind (by rw [hcolon]; decide)
      rw [h (i + n + 1 + m + 1) (by omega) hlt', List.drop_drop,
        show i + (n + 1 + m + 1) = i + n + 1 + m + 1 by omega]
      congr 1
      omega
    · rw [pure_eq_ok, Nat.add_assoc i, Nat.add_assoc i]
  · rfl

/-- The index behind operands joined by bars and ampersands, and behind the conditional type that
they may begin. -/
def unionEnd (ts : TokenStream) (typeFrom : Nat → Checked Nat) (i : Nat) : Checked Nat := do
  let next ← operandEnd ts typeFrom i
  if next = i then return i
  else if ts.kind next = .pipe ∨ ts.kind next = .amp then
    if i < next + 1 ∧ next + 1 ≤ ts.length then unionEnd ts typeFrom (next + 1)
    else .error .standstill
  else if ts.kind next = .kwExtends ∧ !ts.lineBefore next then
    conditionalEnd ts typeFrom (next + 1)
  else return next
termination_by ts.length - i

theorem unionEnd_eq (h : PassesBehind ts typeFrom start) (hi : start ≤ i) :
    unionEnd ts typeFrom i = .ok (i + unionLength (ts.drop i)) := by
  induction hn : ts.length - i using Nat.strong_induction_on generalizing i with
  | _ n ih =>
    subst hn
    rw [unionEnd, operandEnd_eq (h.mono hi), ok_bind]
    generalize hoperand : operandLength (ts.drop i) = n
    by_cases hzero : n = 0
    · rw [if_pos (by omega), unionLength, hoperand, hzero]
      rfl
    rw [if_neg (by omega)]
    cases hdrop : ts.drop (i + n) with
    | nil =>
      have hkind : ts.kind (i + n) = .eof := by rw [kind_eq_headKind_drop, hdrop]; rfl
      rw [unionLength_of_drop_nil hoperand (by rw [List.drop_drop, hdrop])]
      simp [hkind]
    | cons t rest =>
      obtain ⟨hlt, hkind, hrest⟩ := of_drop_eq_cons hdrop
      have hline := (value_of_drop_eq_cons hdrop).2
      rw [unionLength_of_drop hoperand hzero (by rw [List.drop_drop, hdrop]), hkind, hline]
      split
      · rw [if_pos ⟨by omega, hlt⟩, ih _ (by omega) (by omega) rfl, hrest]
        congr 1
        omega
      · split
        · rw [conditionalEnd_eq h (by omega) hlt, hrest]
          congr 1
          omega
        · rfl

/-- The index just past the type at `i`. -/
def pastType (ts : TokenStream) (i : Nat) : Checked Nat :=
  unionEnd ts
    (fun j => if i < j ∧ j ≤ ts.length then pastType ts j else .error .standstill)
    (if ts.kind i = .pipe ∨ ts.kind i = .amp then i + 1 else i)
termination_by ts.length - i

/-- **The end of a type is found without a fault,** whatever the stream holds. -/
theorem pastType_eq (ts : TokenStream) (i : Nat) : pastType ts i = .ok (ts.pastType i) := by
  induction hn : ts.length - i using Nat.strong_induction_on generalizing i with
  | _ n ih =>
    subst hn
    rw [pastType]
    generalize hfrom : (fun j => if i < j ∧ j ≤ ts.length then pastType ts j
      else .error .standstill) = typeFrom
    have hpasses : PassesBehind ts typeFrom i := fun j hj hlen => by
      rw [← hfrom]
      exact (if_pos ⟨hj, hlen⟩).trans (ih _ (by omega) j rfl)
    rw [TokenStream.pastType]
    cases hdrop : ts.drop i with
    | nil =>
      have hkind : ts.kind i = .eof := by rw [kind_eq_headKind_drop, hdrop]; rfl
      rw [hkind, if_neg (by decide), unionEnd_eq hpasses (Nat.le_refl i), hdrop, typeLength,
        unionLength, operandLength]
      rfl
    | cons t rest =>
      obtain ⟨_, hkind, hrest⟩ := of_drop_eq_cons hdrop
      rw [hkind, typeLength]
      split
      · rw [unionEnd_eq hpasses (Nat.le_add_right i 1), hrest, Nat.add_assoc]
      · rw [unionEnd_eq hpasses (Nat.le_refl i), hdrop]

end TypeScriptEngine.Checked
