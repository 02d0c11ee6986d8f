import TypeScriptEngine.Proofs.Token.Balance

/-! # Open brackets

A stack of the open brackets (`readBracket?`) reads a list of tokens to its end and is empty then just
if the brackets are balanced (`run_nil_iff`), and it reads the list to its end at all just if
something can follow that balances them (`extendable_iff`).  In a list whose brackets are balanced
every bracket has its partner (`Bracketed.exists_group`).
-/

namespace TypeScriptEngine

open TokenStream

/-! ## Balanced brackets and a stack -/

namespace TokenStream

variable {front inner ts ts' : TokenStream} {opened left : List TokenKind} {o c t : Token}

theorem Bracketed.append (h : Bracketed ts) (h' : Bracketed ts') : Bracketed (ts ++ ts') := by
  induction h with
  | nil => exact h'
  | plain hopen hclose _ ih => exact .plain hopen hclose ih
  | group hpair hinner _ _ ih =>
    rw [List.cons_append, List.append_assoc]
    exact .group hpair hinner ih

theorem AngleBracketed.append (h : AngleBracketed ts) (h' : AngleBracketed ts') :
    AngleBracketed (ts ++ ts') := by
  induction h with
  | nil => exact h'
  | plain hplain _ ih => exact .plain hplain ih
  | group hpair hinner _ ih =>
    rw [List.cons_append, List.append_assoc]
    exact .group hpair hinner ih
  | angles hl hg hinner _ _ ih =>
    rw [List.cons_append, List.append_assoc]
    exact .angles hl hg hinner ih

theorem AngleBracketed.bracketed (h : AngleBracketed ts) : Bracketed ts := by
  induction h with
  | nil => exact .nil
  | plain hplain _ ih =>
    obtain ⟨hopen, hclose, _⟩ := TokenKind.of_isPlain hplain
    exact .plain hopen hclose ih
  | group hpair hinner _ ih => exact .group hpair hinner ih
  | angles hl hg _ _ ihinner ih =>
    exact .plain (hl ▸ rfl) (hl ▸ rfl) (ihinner.append (.plain (hg ▸ rfl) (hg ▸ rfl) ih))

/-- Something can follow the tokens that balances the brackets. -/
def Extendable (front : TokenStream) : Prop := ∃ more, Bracketed (front ++ more)

/-- The brackets of the tokens are balanced but for those in `opened`, which are open, innermost
first. -/
inductive Opens : List TokenKind → TokenStream → Prop where
  | nil {front : TokenStream} (h : Bracketed front) : Opens [] front
  | cons {opened : List TokenKind} {front inner : TokenStream} {o : Token}
      (hopen : o.kind.isOpener = true) (h : Opens opened front) (hinner : Bracketed inner) :
      Opens (o.kind :: opened) (front ++ o :: inner)

/-- The brackets that are open behind a token, if it can stand behind the open ones: a closing
bracket closes the one that was opened last. -/
def readBracket? (opened : List TokenKind) (t : Token) : Option (List TokenKind) :=
  if t.kind.isOpener then some (t.kind :: opened)
  else if t.kind.isCloser then
    match opened with
    | [] => none
    | opener :: opened => if opener.closer? = some t.kind then some opened else none
  else some opened

theorem readBracket?_opener (h : o.kind.isOpener = true) :
    readBracket? opened o = some (o.kind :: opened) :=
  if_pos h

theorem readBracket?_plain (hopen : t.kind.isOpener = false) (hclose : t.kind.isCloser = false) :
    readBracket? opened t = some opened := by
  unfold readBracket?
  rw [hopen, hclose]
  rfl

theorem readBracket?_closer {opener : TokenKind} (h : opener.closer? = some c.kind) :
    readBracket? (opener :: opened) c = some opened := by
  have hclose := TokenKind.isCloser_of_closer? h
  have hopen : c.kind.isOpener = false := Bool.eq_false_iff.mpr fun hopen =>
    TokenKind.ne_of_isOpener_of_isCloser hopen hclose rfl
  unfold readBracket?
  rw [hopen, hclose]
  exact if_pos h

/-- What a token can be that can stand behind the open brackets. -/
theorem readBracket?_cases (h : readBracket? opened t = some left) :
    (t.kind.isOpener = true ∧ left = t.kind :: opened) ∨
      (∃ opener, opened = opener :: left ∧ opener.closer? = some t.kind) ∨
      (t.kind.isOpener = false ∧ t.kind.isCloser = false ∧ left = opened) := by
  unfold readBracket? at h
  split at h
  · exact .inl ⟨‹_›, (Option.some.inj h).symm⟩
  split at h
  · split at h
    · contradiction
    · split at h
      · rename_i hpair
        obtain rfl := Option.some.inj h
        exact .inr (.inl ⟨_, rfl, hpair⟩)
      · contradiction
  · rename_i hopen hclose
    exact .inr (.inr ⟨Bool.eq_false_iff.mpr hopen, Bool.eq_false_iff.mpr hclose,
      (Option.some.inj h).symm⟩)

/-- Only a closing bracket can be out of place. -/
theorem isCloser_of_readBracket? (h : readBracket? opened t = none) :
    t.kind.isOpener = false ∧ t.kind.isCloser = true := by
  unfold readBracket? at h
  split at h
  · contradiction
  split at h
  · exact ⟨Bool.eq_false_iff.mpr ‹_›, ‹_›⟩
  · contradiction

theorem closer?_ne_of_readBracket? {opener : TokenKind}
    (h : readBracket? (opener :: opened) t = none) : opener.closer? ≠ some t.kind :=
  fun hpair => absurd (h.symm.trans (readBracket?_closer hpair)) nofun

/-- **Balanced tokens leave open what was open.** -/
theorem run_bracketed (h : Bracketed ts) (opened : List TokenKind) :
    ts.foldlM readBracket? opened = some opened := by
  induction h generalizing opened with
  | nil => rfl
  | plain hopen hclose _ ih =>
    rw [List.foldlM_cons, readBracket?_plain hopen hclose]
    exact ih opened
  | @group o c inner ts hpair _ _ ihinner ih =>
    have hgroup : (o :: (inner ++ c :: ts)).foldlM readBracket? opened =
        (inner ++ c :: ts).foldlM readBracket? (o.kind :: opened) := by
      rw [List.foldlM_cons, readBracket?_opener (TokenKind.isOpener_of_closer? hpair)]
      rfl
    rw [hgroup, List.foldlM_append, ihinner]
    show (c :: ts).foldlM readBracket? (o.kind :: opened) = _
    rw [List.foldlM_cons, readBracket?_closer hpair]
    exact ih opened

/-- Balanced tokens can follow. -/
theorem Opens.append (h : Opens opened front) (h' : Bracketed ts) : Opens opened (front ++ ts) := by
  cases h with
  | nil h => exact .nil (h.append h')
  | cons hopen h hinner =>
    rw [List.append_assoc, List.cons_append]
    exact .cons hopen h (hinner.append h')

/-- One token after the other, what is open is what the stack holds. -/
theorem Opens.step (h : Opens opened front) (ht : readBracket? opened t = some left) :
    Opens left (front ++ [t]) := by
  obtain ⟨hopen, rfl⟩ | ⟨opener, rfl, hpair⟩ | ⟨hopen, hclose, rfl⟩ := readBracket?_cases ht
  · exact .cons hopen h .nil
  · cases h with
    | cons _ h hinner =>
      rw [List.append_assoc, List.cons_append]
      exact h.append (.group hpair hinner .nil)
  · exact h.append (.plain hopen hclose .nil)

theorem Opens.run (h : Opens opened front) (hts : ts.foldlM readBracket? opened = some left) :
    Opens left (front ++ ts) := by
  induction ts generalizing opened front with
  | nil =>
    obtain rfl := Option.some.inj hts
    rwa [List.append_nil]
  | cons t ts ih =>
    obtain ⟨mid, ht, hts⟩ := Option.bind_eq_some_iff.mp hts
    rw [List.append_cons]
    exact ih (h.step ht) hts

/-- **What the stack holds is what is open.** -/
theorem opens_of_run (h : front.foldlM readBracket? [] = some left) : Opens left front :=
  (Opens.nil .nil).run h

/-- **The stack is empty behind the tokens just if their brackets are balanced.** -/
theorem run_nil_iff : ts.foldlM readBracket? [] = some [] ↔ Bracketed ts := by
  refine ⟨fun h => ?_, fun h => run_bracketed h []⟩
  cases opens_of_run h with
  | nil h => exact h

theorem exists_closer? {k : TokenKind} (h : k.isOpener = true) : ∃ c, k.closer? = some c := by
  unfold TokenKind.isOpener at h
  split at h <;> first | exact ⟨_, rfl⟩ | contradiction

/-- What is open can be closed, whatever balanced tokens come first. -/
theorem Opens.extendable (h : Opens opened front) : Extendable front := by
  suffices h : ∀ inner, Bracketed inner → Extendable (front ++ inner) by
    simpa using h [] .nil
  induction h with
  | nil h => exact fun inner hinner => ⟨[], by simpa using h.append hinner⟩
  | @cons opened front inner o hopen _ hinner ih =>
    intro behind hbehind
    obtain ⟨c, hpair⟩ := exists_closer? hopen
    let closer : Token := ⟨c, ⟨0, 0⟩, "", "", false⟩
    obtain ⟨more, hmore⟩ := ih (o :: ((inner ++ behind) ++ closer :: []))
      (.group hpair (hinner.append hbehind) .nil)
    refine ⟨closer :: more, ?_⟩
    simpa only [List.append_assoc, List.cons_append, List.nil_append] using hmore

/-- **The stack does not get stuck just if something can follow that balances the brackets.** -/
theorem extendable_iff : Extendable front ↔ ∃ left, front.foldlM readBracket? [] = some left := by
  refine ⟨fun ⟨more, hmore⟩ => ?_, fun ⟨left, hleft⟩ => (opens_of_run hleft).extendable⟩
  have hrun := run_bracketed hmore []
  rw [List.foldlM_append] at hrun
  obtain ⟨left, hleft, _⟩ := Option.bind_eq_some_iff.mp hrun
  exact ⟨left, hleft⟩

theorem not_extendable_of_stuck (h : front.foldlM readBracket? [] = some opened)
    (ht : readBracket? opened t = none) : ¬Extendable (front ++ [t]) := by
  rw [extendable_iff]
  rintro ⟨left, hleft⟩
  rw [List.foldlM_append, h] at hleft
  obtain ⟨_, hstep, _⟩ : ∃ mid, readBracket? opened t = some mid ∧ _ :=
    Option.bind_eq_some_iff.mp hleft
  exact absurd (ht.symm.trans hstep) nofun

/-- What the stack can get stuck at. -/
theorem exists_stuck (h : ts.foldlM readBracket? opened = none) :
    ∃ front t behind left, ts = front ++ t :: behind ∧
      front.foldlM readBracket? opened = some left ∧ readBracket? left t = none := by
  induction ts generalizing opened with
  | nil => contradiction
  | cons t ts ih =>
    cases ht : readBracket? opened t with
    | none => exact ⟨[], t, ts, opened, rfl, rfl, ht⟩
    | some mid =>
      rw [List.foldlM_cons, ht] at h
      obtain ⟨front, t', behind, left, rfl, hfront, hstuck⟩ := ih h
      refine ⟨t :: front, t', behind, left, rfl, ?_, hstuck⟩
      rw [List.foldlM_cons, ht]
      exact hfront

/-- The bracket `o` is the innermost one that is open behind the tokens. -/
def InnermostOpen (front : TokenStream) (o : TokenKind) : Prop :=
  o.isOpener = true ∧ ∃ outer t inner, front = outer ++ t :: inner ∧ t.kind = o ∧ Bracketed inner

theorem innermostOpen_of_run {o : TokenKind}
    (h : front.foldlM readBracket? [] = some (o :: opened)) : InnermostOpen front o := by
  cases opens_of_run h with
  | cons hopen _ hinner => exact ⟨hopen, _, _, _, rfl, rfl, hinner⟩

/-! ## Parts of balanced tokens -/

instance : Decidable (Bracketed ts) := decidable_of_iff _ run_nil_iff

/-- What is left of balanced tokens before balanced ones is balanced. -/
theorem Bracketed.of_append (h : Bracketed (front ++ ts)) (hts : Bracketed ts) :
    Bracketed front := by
  have hrun := run_nil_iff.mpr h
  rw [List.foldlM_append] at hrun
  obtain ⟨left, hleft, hrest⟩ := Option.bind_eq_some_iff.mp hrun
  obtain rfl := Option.some.inj ((run_bracketed hts left).symm.trans hrest)
  exact run_nil_iff.mp hleft

/-- **Every opening bracket among balanced tokens has its partner.** -/
theorem Bracketed.exists_group (h : Bracketed ts) (hts : ts = front ++ o :: ts')
    (hopen : o.kind.isOpener = true) : ∃ inner c behind, ts' = inner ++ c :: behind ∧
      o.kind.closer? = some c.kind ∧ Bracketed inner := by
  induction h generalizing front ts' with
  | nil => exact absurd hts (by simp)
  | plain hplain _ _ ih =>
    cases front with
    | nil =>
      obtain ⟨rfl, -⟩ := List.cons.inj hts
      exact absurd (hplain.symm.trans hopen) nofun
    | cons _ front => exact ih (List.cons.inj hts).2
  | @group p c inner ts hpair hinner _ ihinner ih =>
    cases front with
    | nil =>
      obtain ⟨rfl, rfl⟩ := List.cons.inj hts
      exact ⟨inner, c, ts, rfl, hpair, hinner⟩
    | cons _ front =>
      obtain ⟨-, hts⟩ := List.cons.inj hts
      -- the bracket stands in the group, or behind it, but is not the one that closes it
      rcases List.append_eq_append_iff.mp hts with ⟨more, rfl, hrest⟩ | ⟨more, rfl, hrest⟩
      · cases more with
        | nil =>
          obtain ⟨rfl, -⟩ := List.cons.inj hrest
          exact absurd (TokenKind.isCloser_of_closer? hpair)
            (Bool.eq_false_iff.mp (TokenKind.isCloser_of_isOpener hopen))
        | cons _ more => exact ih (List.cons.inj hrest).2
      · cases more with
        | nil =>
          obtain ⟨rfl, -⟩ := List.cons.inj hrest
          exact absurd (TokenKind.isCloser_of_closer? hpair)
            (Bool.eq_false_iff.mp (TokenKind.isCloser_of_isOpener hopen))
        | cons _ more =>
          obtain ⟨rfl, rfl⟩ := List.cons.inj hrest
          obtain ⟨inner', c', behind, rfl, hpair', hinner'⟩ := ihinner rfl
          exact ⟨inner', c', behind ++ c :: ts, by simp, hpair', hinner'⟩

/-- The brackets of a pair and what they hold are balanced. -/
theorem bracketed_take_of_bracketSpan? {n : Nat} (h : Bracketed (front ++ ts))
    (hn : bracketSpan? ts = some n) : Bracketed (ts.take (n + 1)) := by
  cases ts with
  | nil => contradiction
  | cons o ts =>
    obtain ⟨closer, hcloser, -⟩ := Option.bind_eq_some_iff.mp hn
    obtain ⟨inner, c, behind, rfl, hpair, hinner⟩ :=
      h.exists_group rfl (TokenKind.isOpener_of_closer? hcloser)
    obtain rfl := Option.some.inj ((bracketSpan?_bracketed hpair hinner behind).symm.trans hn)
    rw [List.take_succ_cons, List.take_length_add_append]
    exact .group hpair hinner .nil

theorem endsTypeArguments_of_isCloser {k : TokenKind} (h : k.isCloser = true) :
    endsTypeArguments k = true := by
  unfold TokenKind.isCloser at h
  split at h <;> first | rfl | contradiction

/-- So are angle brackets and what they hold, up to the one that closes them. -/
theorem bracketed_take_of_angleOffset? {depth n : Nat} (h : Bracketed (front ++ ts))
    (hn : angleOffset? depth ts = some n) : Bracketed (ts.take (n + 1)) := by
  -- a token that is no bracket is passed by, and the search goes on behind it
  have hnext : ∀ {t : Token} {rest : TokenStream} {m : Option Nat} {k : Nat},
      t.kind.isOpener = false → t.kind.isCloser = false → m.map (· + 1) = some k →
      (∀ j, m = some j → Bracketed (rest.take (j + 1))) → Bracketed ((t :: rest).take (k + 1)) := by
    intro t rest m k hopen hclose hk hrest
    obtain ⟨j, rfl, rfl⟩ := Option.map_eq_some_iff.mp hk
    exact .plain hopen hclose (hrest j rfl)
  fun_induction angleOffset? depth ts generalizing front n with
  | case1 => contradiction
  | case2 depth t rest hlt ih =>
    rw [List.append_cons] at h
    exact hnext (hlt ▸ rfl) (hlt ▸ rfl) hn fun j hj => ih h hj
  | case3 t rest _ hgt =>
    obtain rfl := Option.some.inj hn
    exact .plain (hgt ▸ rfl) (hgt ▸ rfl) .nil
  | case4 t rest _ hgt depth ih =>
    rw [List.append_cons] at h
    exact hnext (hgt ▸ rfl) (hgt ▸ rfl) hn fun j hj => ih h hj
  | case5 depth t rest _ _ hopen ih =>
    obtain ⟨m, hm, hn⟩ := Option.bind_eq_some_iff.mp hn
    obtain ⟨j, hj, rfl⟩ := Option.map_eq_some_iff.mp hn
    have hgroup := bracketed_take_of_bracketSpan? h hm
    rw [← List.take_append_drop (m + 1) (t :: rest), ← List.append_assoc] at h
    rw [Nat.add_comm j, Nat.add_assoc, List.take_add]
    exact hgroup.append (ih m h hj)
  | case6 => contradiction
  | case7 depth t rest _ _ hopen hends ih =>
    have hclose : t.kind.isCloser = false :=
      Bool.eq_false_iff.mpr fun hclose => hends (endsTypeArguments_of_isCloser hclose)
    rw [List.append_cons] at h
    exact hnext (Bool.eq_false_iff.mpr hopen) hclose hn fun j hj => ih h hj

theorem bracketed_take_of_angleSpan? {n : Nat} (h : Bracketed (front ++ ts))
    (hn : angleSpan? ts = some n) : Bracketed (ts.take (n + 1)) := by
  cases ts with
  | nil => contradiction
  | cons l ts =>
    rw [angleSpan?] at hn
    split at hn
    · rename_i hlt
      obtain ⟨m, hm, rfl⟩ := Option.map_eq_some_iff.mp hn
      rw [List.append_cons] at h
      exact .plain (hlt ▸ rfl) (hlt ▸ rfl) (bracketed_take_of_angleOffset? h hm)
    · contradiction

/-! ## By index -/

/-- The tokens from `i` up to `j`. -/
def between (ts : TokenStream) (i j : Nat) : TokenStream := (ts.drop i).take (j - i)

variable {i j k : Nat}

theorem between_self (ts : TokenStream) (i : Nat) : ts.between i i = [] := by
  rw [between, Nat.sub_self, List.take_zero]

theorem between_append (ts : TokenStream) (hij : i ≤ j) (hjk : j ≤ k) :
    ts.between i j ++ ts.between j k = ts.between i k := by
  unfold between
  rw [show k - i = (j - i) + (k - j) by omega, List.take_add, List.drop_drop,
    Nat.add_sub_cancel' hij]

theorem between_succ (h : i < ts.length) : ts.between i (i + 1) = [ts[i]] := by
  rw [between, Nat.add_sub_cancel_left, List.drop_eq_getElem_cons h]
  rfl

theorem between_append_drop (ts : TokenStream) (hij : i ≤ j) :
    ts.between i j ++ ts.drop j = ts.drop i := by
  rw [between, ← Nat.add_sub_cancel' hij, ← List.drop_drop, Nat.add_sub_cancel_left,
    List.take_append_drop]

theorem length_between_le (ts : TokenStream) (i j : Nat) : (ts.between i j).length ≤ j - i :=
  List.length_take_le ..

theorem kind_eq (h : i < ts.length) : ts.kind i = ts[i].kind := by
  rw [kind, List.getElem?_eq_getElem h]
  rfl

/-- A pair of brackets is balanced with what it holds. -/
theorem bracketed_between_of_matching? (h : Bracketed ts) (hj : ts.matching? i = some j) :
    Bracketed (ts.between i (j + 1)) := by
  obtain ⟨n, hn, rfl⟩ := Option.map_eq_some_iff.mp hj
  rw [between, Nat.add_assoc, Nat.add_sub_cancel_left]
  rw [← List.take_append_drop i ts] at h
  exact bracketed_take_of_bracketSpan? h hn

theorem bracketed_between_of_matchingAngle? (h : Bracketed ts)
    (hj : ts.matchingAngle? i = some j) : Bracketed (ts.between i (j + 1)) := by
  obtain ⟨n, hn, rfl⟩ := Option.map_eq_some_iff.mp hj
  rw [between, Nat.add_assoc, Nat.add_sub_cancel_left]
  rw [← List.take_append_drop i ts] at h
  exact bracketed_take_of_angleSpan? h hn

end TokenStream

end TypeScriptEngine
