import TypeScriptEngine.Check.Erasability
import TypeScriptEngine.Proofs.Checked.Navigation

/-! # Looking for syntax that cannot be erased

The search goes over the tokens by index.  It looks back by one or two tokens, and goes on behind a
namespace that holds values (`nonErasable_eq`).
-/

namespace TypeScriptEngine.Checked

open TokenStream

variable {ts rest : TokenStream} {i j : Nat} {previous before : TokenKind}

/-- Whether the declaration at `i` is ambient, by the two tokens before it. -/
def isAmbientAt (ts : TokenStream) (i : Nat) : Checked Bool := do
  match ← back i 1 with
  | none => return false
  | some k =>
    if ts.kind k = .kwDeclare then return true
    else return (ts.kind k == .kwConst || ts.kind k == .kwExport) &&
      (← back i 2).any fun j => ts.kind j == .kwDeclare

/-- The place of a namespace's closing brace, or of the end of the text. -/
def closeOf (ts : TokenStream) (i : Nat) : Nat := (ts.matching? i).getD ts.last

theorem le_closeOf (hij : i < j) (hi : i < ts.length) : i ≤ closeOf ts j := by
  unfold closeOf
  cases hclose : ts.matching? j with
  | none =>
    rw [Option.getD_none, last]
    omega
  | some close =>
    have := lt_of_matching? hclose
    rw [Option.getD_some]
    omega

/-- The places from token `i` on that cannot be erased. -/
def nonErasable (ts : TokenStream) (i : Nat) : Checked (List Span) :=
  if h : i < ts.length then do
    let declares := !(← followsDot ts i) && (ts.kind (i + 1)).isName && !(← isAmbientAt ts i)
    let here := ts[i].span
    if ts.kind i = .kwEnum ∧ declares then return here :: (← nonErasable ts (i + 1))
    else if (ts.kind i = .kwNamespace ∨ ts.kind i = .kwModule) ∧ declares then
      let block := i + 2 + memberLength (ts.drop (i + 2))
      if ts.kind block = .lbrace then
        let close := closeOf ts block
        let holdsValues := ((ts.drop (block + 1)).take (close - (block + 1))).any fun u =>
          Check.declaresValue u.kind
        return (if holdsValues then [here] else []) ++ (← nonErasable ts (close + 1))
      else nonErasable ts (i + 1)
    else if ts.kind i = .identifier ∧ ts.value i = "constructor" ∧ ts.kind (i + 1) = .lparen then
      let properties := Check.parameterProperties true (Check.bracketBody (ts.drop (i + 1)))
        (ts.drop (i + 2))
      return properties ++ (← nonErasable ts (i + 1))
    else nonErasable ts (i + 1)
  else return []
termination_by ts.length - i
decreasing_by
  · omega
  · have : i ≤ closeOf ts (i + 2 + memberLength (ts.drop (i + 2))) := le_closeOf (by omega) h
    omega
  · omega
  · omega
  · omega

theorem isAmbientAt_succ (ts : TokenStream) (i : Nat) :
    isAmbientAt ts (i + 1) =
      .ok (Check.isAmbientAfter (ts.kind i) (if 1 ≤ i then ts.kind (i - 1) else .eof)) := by
  have hbefore : (if 2 ≤ i + 1 then some (i + 1 - 2) else none).any
      (fun j => ts.kind j == .kwDeclare) =
        ((if 1 ≤ i then ts.kind (i - 1) else .eof) == TokenKind.kwDeclare) := by
    cases i with
    | zero => rfl
    | succ k => rw [if_pos (by omega), if_pos (by omega)]; rfl
  rw [isAmbientAt, back_succ, ok_bind, Check.isAmbientAfter]
  simp only [back_eq_ok, ok_bind, pure_eq_ok, hbefore]
  split
  · rename_i hdeclare
    rw [hdeclare]
    rfl
  · rename_i hdeclare
    rw [beq_false_of_ne hdeclare, Bool.false_or]

/-- What the kinds of the two tokens before an index tell about it. -/
structure Preceded (ts : TokenStream) (i : Nat) (previous before : TokenKind) : Prop where
  behind : previous = if 1 ≤ i then ts.kind (i - 1) else .eof
  ambient : isAmbientAt ts i = .ok (Check.isAmbientAfter previous before)

namespace Preceded

theorem zero (ts : TokenStream) : Preceded ts 0 .eof .eof := ⟨rfl, rfl⟩

theorem dot (h : Preceded ts i previous before) : followsDot ts i = .ok previous.isDot := by
  rw [followsDot_eq, h.behind]
  cases i <;> rfl

theorem next (h : Preceded ts i previous before) : Preceded ts (i + 1) (ts.kind i) previous where
  behind := rfl
  ambient := by rw [isAmbientAt_succ, h.behind]

/-- Behind a closing brace nothing is ambient. -/
theorem brace (h : ts.kind i = .rbrace) (before : TokenKind) :
    Preceded ts (i + 1) .rbrace before where
  behind := h.symm
  ambient := by
    rw [isAmbientAt_succ, h]
    rfl

end Preceded

/-- The search goes on behind the block of a namespace, closed or not. -/
theorem drop_closeOf (hopen : ts.kind j = .lbrace) :
    Check.bracketBody (ts.drop j) = closeOf ts j - (j + 1) ∧
      ((ts.drop j).drop (Check.bracketBody (ts.drop j) + 2) = ts.drop (closeOf ts j + 1)) ∧
      (ts.drop (closeOf ts j + 1) = [] ∨ ts.kind (closeOf ts j) = .rbrace) := by
  have hlt : j < ts.length := by
    by_contra hlt
    have hkind : ts.kind j = .eof := by
      rw [TokenStream.kind, List.getElem?_eq_none (Nat.not_lt.mp hlt)]
      rfl
    rw [hopen] at hkind
    contradiction
  unfold Check.bracketBody closeOf
  cases hspan : bracketSpan? (ts.drop j) with
  | none =>
    have hclose : ts.matching? j = none := by rw [TokenStream.matching?, hspan]; rfl
    simp only [hclose, Option.elim, Option.getD_none, List.length_drop, last]
    refine ⟨by omega, ?_, .inl (List.drop_eq_nil_of_le (by omega))⟩
    rw [List.drop_drop, List.drop_eq_nil_of_le (by omega), List.drop_eq_nil_of_le (by omega)]
  | some n =>
    have hclose : ts.matching? j = some (j + n) := by rw [TokenStream.matching?, hspan]; rfl
    have hpos := lt_of_matching? hclose
    have hkind := kind_of_matching? hclose
    rw [hopen] at hkind
    simp only [hclose, Option.elim, Option.getD_some]
    refine ⟨by omega, ?_, .inr (Option.some.inj hkind).symm⟩
    rw [List.drop_drop]
    congr 1
    omega

theorem nonErasable_of_preceded (h : Preceded ts i previous before) :
    nonErasable ts i = .ok (Check.nonErasable previous before (ts.drop i)) := by
  induction hn : ts.length - i using Nat.strong_induction_on generalizing i previous before with
  | _ n ih =>
    subst hn
    cases hdrop : ts.drop i with
    | nil => rw [nonErasable, dif_neg (length_le_of_drop_eq_nil hdrop), Check.nonErasable]; rfl
    | cons t rest =>
      obtain ⟨hlt, hkind, hrest⟩ := of_drop_eq_cons hdrop
      have hnext := ih _ (by omega) h.next rfl
      rw [hkind, hrest] at hnext
      have hspan : ts[i] = t := by
        rw [List.drop_eq_getElem_cons hlt] at hdrop
        exact (List.cons.inj hdrop).1
      have hvalue : ts.value i = t.value := by
        rw [TokenStream.value, List.getElem?_eq_getElem hlt, hspan, Option.elim]
      rw [nonErasable, dif_pos hlt, Check.nonErasable, h.dot, ok_bind, h.ambient, ok_bind]
      simp only [hspan, hvalue, hkind, kind_eq_headKind_drop ts (i + 1), hrest, hnext, ok_bind,
        pure_eq_ok]
      split
      · rfl
      have hrest' : ts.drop (i + 2) = rest.drop 1 := by rw [← hrest, List.drop_drop]
      split
      · rw [hrest']
        generalize hmembers : memberLength (rest.drop 1) = m
        have hblock : rest.drop (1 + m) = ts.drop (i + 2 + m) := by
          rw [← List.drop_drop, ← hrest', List.drop_drop]
        rw [hblock, ← kind_eq_headKind_drop]
        split
        · rename_i hopen
          obtain ⟨hbody, hbehind, hclose⟩ := drop_closeOf hopen
          have hrecurse : nonErasable ts (closeOf ts (i + 2 + m) + 1) =
              .ok (Check.nonErasable .rbrace .eof (ts.drop (closeOf ts (i + 2 + m) + 1))) := by
            rcases hclose with hnil | hbrace
            · rw [hnil, nonErasable, dif_neg (length_le_of_drop_eq_nil hnil), Check.nonErasable]
              rfl
            · have := le_closeOf (show i < i + 2 + m by omega) hlt
              exact ih _ (by omega) (.brace hbrace .eof) rfl
          rw [hrecurse, hbehind, hbody, List.drop_drop]
          rfl
        · rfl
      · rw [hrest']
        split <;> rfl

/-- **The search for syntax that cannot be erased does not fail.** -/
theorem nonErasable_eq (ts : TokenStream) :
    nonErasable ts 0 = .ok (Check.nonErasable .eof .eof ts) :=
  nonErasable_of_preceded (.zero ts)

/-- The findings on syntax that cannot be erased. -/
def erasability (ts : TokenStream) : Checked (List Finding) :=
  return (← nonErasable ts 0).map fun span => ⟨.notErasable, span⟩

theorem erasability_eq (ts : TokenStream) : erasability ts = .ok (Check.erasability ts) := by
  rw [erasability, nonErasable_eq]
  rfl

end TypeScriptEngine.Checked
