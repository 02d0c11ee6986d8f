import TypeScriptEngine.Proofs.CommonJs.Reading

/-! # How far a declaration reaches

A statement stops where a line break comes between a token that can end it and one that cannot go on
with it.  In a declaration that is so before the clause that names its module, and in it; before its
other atoms a line break does no harm.
-/

namespace TypeScriptEngine.ModuleSyntax

open TokenStream

variable {place : Nat → TokenPlace} {ts : TokenStream} {k : Nat} {w : Word} {ws : List Word}
  {rest : TokenStream}

/-- No line break comes before an atom that may not begin a line. -/
def Unbroken (place : Nat → TokenPlace) : Nat → List Slot → Prop
  | _, [] => True
  | k, s :: ss => (s.mayBreak = false → (place k).lineBefore = false) ∧ Unbroken place (k + 1) ss

theorem unbroken_append {k : Nat} {ss ss' : List Slot} :
    Unbroken place k (ss ++ ss') ↔ Unbroken place k ss ∧ Unbroken place (k + ss.length) ss' := by
  induction ss generalizing k with
  | nil => exact ⟨fun h => ⟨trivial, h⟩, And.right⟩
  | cons s ss ih =>
    rw [List.cons_append, Unbroken, Unbroken, ih, and_assoc, List.length_cons,
      Nat.add_comm ss.length, ← Nat.add_assoc]

theorem unbroken_congr {place' : Nat → TokenPlace} {ss : List Slot}
    (h : ∀ j, k ≤ j → place j = place' j) : Unbroken place k ss ↔ Unbroken place' k ss := by
  induction ss generalizing k with
  | nil => exact Iff.rfl
  | cons s ss ih =>
    rw [Unbroken, Unbroken, h k (Nat.le_refl k), ih fun j hj => h j (Nat.le_of_succ_le hj)]

/-! ## Steps -/

/-- What is left of a statement behind a token that can end it. -/
def remaining (rest : TokenStream) : Nat :=
  if headLineBefore rest then 0 else statementLength 0 rest

theorem remaining_of_line (h : headLineBefore rest = false) :
    remaining rest = statementLength 0 rest := by
  rw [remaining, h]
  rfl

section

variable {t : Token}

theorem statementLength_cons (hclose : t.kind.isCloser = false) (hopen : t.kind.isOpener = false)
    (hsemicolon : t.kind ≠ .semicolon) (heof : t.kind ≠ .eof) :
    statementLength 0 (t :: rest) =
      1 + if breaksAfter t rest then 0 else statementLength 0 rest := by
  rw [statementLength, if_neg heof, if_neg (by simp [hclose]), if_neg fun h => hsemicolon h.1]
  cases hbreak : breaksAfter t rest <;> simp [depthAfter, hclose, hopen]

theorem breaksAfter_of_line (h : headLineBefore rest = false) : breaksAfter t rest = false := by
  rw [breaksAfter, h]
  rfl

theorem breaksAfter_of_not_ends (h : t.endsExpression = false) : breaksAfter t rest = false := by
  rw [breaksAfter, h, Bool.and_false, Bool.false_and]

theorem breaksAfter_of_continues (h : (headKind rest).continuesExpression = true) :
    breaksAfter t rest = false := by
  rw [breaksAfter, h, Bool.not_true, Bool.and_false]

theorem breaksAfter_of_ends (hends : t.endsExpression = true)
    (h : (headKind rest).continuesExpression = false) :
    breaksAfter t rest = headLineBefore rest := by
  rw [breaksAfter, hends, h, Bool.and_true, Bool.not_false, Bool.and_true]

end

/-- An atom that does not end the statement is passed over. -/
theorem statementLength_atom (a : Atom) {p : TokenPlace} (hbracket : NoBracket a.kind)
    (hsemicolon : a.kind ≠ .semicolon) (hbreak : breaksAfter (a.toWord.token p) rest = false) :
    statementLength 0 (a.toWord.token p :: rest) = 1 + statementLength 0 rest := by
  rw [statementLength_cons hbracket.2 hbracket.1 hsemicolon a.spells.kind_ne_eof, hbreak]
  rfl

theorem Name.kind_ne_semicolon (n : Name) : n.atom.kind ≠ .semicolon :=
  n.kind_ne (by decide) (by decide)

/-! ## The clause that names a module -/

/-- Behind the clause that names a module a statement goes on if no line break comes. -/
theorem statementLength_from {source : StringLiteral}
    (hrest : (headKind rest).continuesExpression = false)
    (h : Unbroken place (k + 1) [.tied (.string source)]) :
    statementLength 0 (stream place k (Atom.words ((fromSlots source).map Slot.atom)) ++ rest) =
      2 + remaining rest := by
  let t := (Atom.string source).toWord.token (place (k + 1))
  have hline : headLineBefore (t :: rest) = false := h.1 rfl
  have hends : t.endsExpression = true := rfl
  change statementLength 0 (Keyword.kwFrom.atom.toWord.token (place k) :: t :: rest) = _
  rw [statementLength_atom _ ⟨rfl, rfl⟩ (by decide) (breaksAfter_of_line hline),
    statementLength_cons rfl rfl (by simp [t]) (by simp [t]), breaksAfter_of_ends hends hrest,
    remaining, ← Nat.add_assoc]

/-! ## Lists -/

/-- Behind a list a statement goes on if no line break comes. -/
theorem statementLength_list (l : NamedList)
    (hrest : (headKind rest).continuesExpression = false) :
    statementLength 0 (stream place k (Atom.words l.atoms) ++ rest) =
      l.atoms.length + remaining rest := by
  let o := (Atom.sign .lbrace).toWord.token (place k)
  let c := (Atom.sign .rbrace).toWord.token (place (k + 1 + l.inner.length))
  have hlength : l.atoms.length = l.inner.length + 2 := by simp [NamedList.atoms]
  have htokens : stream place k (Atom.words l.atoms) ++ rest =
      o :: (stream place (k + 1) (Atom.words l.inner) ++ c :: rest) := by
    simp [NamedList.atoms, o, c]
  have hends : c.endsExpression = true := rfl
  have hopen : statementLength 0 (o :: (stream place (k + 1) (Atom.words l.inner) ++ c :: rest)) =
      1 + statementLength 1 (stream place (k + 1) (Atom.words l.inner) ++ c :: rest) := by
    rw [statementLength]
    simp [o, TokenKind.isCloser, TokenKind.isOpener, depthAfter]
  have hclose : statementLength 1 (c :: rest) = 1 + remaining rest := by
    rw [statementLength, breaksAfter_of_ends hends hrest, remaining]
    cases headLineBefore rest <;> simp [c, TokenKind.isCloser, TokenKind.isOpener, depthAfter]
  rw [htokens, hopen, statementLength_balanced l.balanced_inner, hclose, hlength,
    Atom.length_words]
  omega

/-! ## Declarations -/

/-- What an import binds besides a default, and its source. -/
theorem statementLength_others (b : Bindings) {source : StringLiteral}
    (hrest : (headKind rest).continuesExpression = false)
    (h : Unbroken place k (b.slots ++ fromSlots source)) :
    statementLength 0 (stream place k (Atom.words ((b.slots ++ fromSlots source).map Slot.atom)) ++
      rest) = (b.slots ++ fromSlots source).length + remaining rest := by
  rw [List.map_append, b.map_slots, List.length_append, ← List.length_map Slot.atom, b.map_slots]
  change _ = b.atoms.length + 2 + remaining rest
  cases b with
  | whole name =>
    obtain ⟨-, -, hname, hfrom, hsource⟩ := h
    change statementLength 0 ((Atom.sign .star).toWord.token (place k) ::
      Keyword.kwAs.atom.toWord.token (place (k + 1)) :: name.atom.toWord.token (place (k + 1 + 1)) ::
        (stream place (k + 1 + 1 + 1) (Atom.words ((fromSlots source).map Slot.atom)) ++ rest)) = _
    rw [statementLength_atom (.sign .star) ⟨rfl, rfl⟩ (by decide),
      statementLength_atom Keyword.kwAs.atom ⟨rfl, rfl⟩ (by decide),
      statementLength_atom name.atom name.noBracket name.kind_ne_semicolon,
      statementLength_from hrest hsource]
    · change 1 + (1 + (1 + (2 + remaining rest))) = 3 + 2 + remaining rest
      omega
    · exact breaksAfter_of_line (hfrom rfl)
    · exact breaksAfter_of_line (hname rfl)
    · exact breaksAfter_of_not_ends rfl
  | named list =>
    obtain ⟨-, hfrom, hsource⟩ := unbroken_append.mp h
    have hlength : (Bindings.named list).slots.length = (Atom.words list.atoms).length := by
      simp [Bindings.slots]
    rw [hlength] at hfrom hsource
    change statementLength 0 (stream place k (Atom.words
      (list.atoms ++ (fromSlots source).map Slot.atom)) ++ rest) = list.atoms.length + 2 + _
    rw [Atom.words_append, stream_append, List.append_assoc, statementLength_list, remaining_of_line,
      statementLength_from hrest hsource, Nat.add_assoc]
    · exact hfrom rfl
    · rfl

/-- **A declaration goes on to its semicolon,** if no line break comes before that. -/
theorem statementLength_slots (d : Declaration)
    (hrest : (headKind rest).continuesExpression = false) (h : Unbroken place k d.slots) :
    statementLength 0 (stream place k (Atom.words (d.slots.map Slot.atom)) ++ rest) =
      d.slots.length + remaining rest := by
  rcases d with ⟨_ | n, _ | others, source⟩ | ⟨list, _ | source⟩
  · let t := (Atom.string source).toWord.token (place k)
    have hends : t.endsExpression = true := rfl
    change statementLength 0 (t :: rest) = 1 + remaining rest
    rw [statementLength_cons rfl rfl (by simp [t]) (by simp [t]), breaksAfter_of_ends hends hrest,
      remaining]
  · exact statementLength_others others hrest h
  · obtain ⟨-, hfrom, hsource⟩ := h
    change statementLength 0 (n.name.atom.toWord.token (place k) ::
      (stream place (k + 1) (Atom.words ((fromSlots source).map Slot.atom)) ++ rest)) = 3 + _
    rw [statementLength_atom n.name.atom n.name.noBracket n.name.kind_ne_semicolon,
      statementLength_from hrest hsource]
    · omega
    · exact breaksAfter_of_line (hfrom rfl)
  · obtain ⟨-, -, hothers⟩ := h
    change statementLength 0 (n.name.atom.toWord.token (place k) ::
      (Atom.sign .comma).toWord.token (place (k + 1)) :: (stream place (k + 1 + 1)
        (Atom.words ((others.slots ++ fromSlots source).map Slot.atom)) ++ rest)) =
          (others.slots ++ fromSlots source).length + 2 + _
    rw [statementLength_atom n.name.atom n.name.noBracket n.name.kind_ne_semicolon,
      statementLength_atom (.sign .comma) ⟨rfl, rfl⟩ (by decide),
      statementLength_others others hrest hothers]
    · omega
    · exact breaksAfter_of_not_ends rfl
    · exact breaksAfter_of_continues rfl
  · have hatoms : (Declaration.exports list none).slots.map Slot.atom = list.atoms := by
      simp [Declaration.slots, Slot.free, Function.comp_def]
    rw [← List.length_map Slot.atom, hatoms]
    exact statementLength_list list hrest
  · exact statementLength_others (.named list) hrest h

/-- Where the statement of a declaration stops: at its semicolon, or before it if a line break comes
there. -/
theorem pastStatement_declaration (d : Declaration) (h : Reads place ts k
      (Atom.words d.atoms ++ (Atom.sign .semicolon).toWord :: ws))
    (hunbroken : Unbroken place (k + 1) d.slots) : ts.pastStatement k =
      k + d.atoms.length + if (place (k + d.atoms.length)).lineBefore then 0 else 1 := by
  let semicolon := (Atom.sign .semicolon).toWord.token (place (k + d.atoms.length))
  obtain ⟨rest, hrest⟩ := h
  rw [stream_append, List.append_assoc, Atom.length_words] at hrest
  have hremaining : ∀ rest, remaining (semicolon :: rest) =
      if semicolon.lineBefore then 0 else 1 := by
    intro rest
    rw [remaining, statementLength]
    simp [semicolon, TokenKind.isCloser]
    rfl
  have hkeyword : ∀ rest, statementLength 0 (d.keyword.atom.toWord.token (place k) :: rest) =
      1 + statementLength 0 rest := by
    intro rest
    cases d with
    | imports =>
      exact statementLength_atom Keyword.kwImport.atom ⟨rfl, rfl⟩ (by decide)
        (breaksAfter_of_not_ends rfl)
    | exports =>
      exact statementLength_atom Keyword.kwExport.atom ⟨rfl, rfl⟩ (by decide)
        (breaksAfter_of_not_ends rfl)
  rw [pastStatement, hrest]
  change k + statementLength 0 (d.keyword.atom.toWord.token (place k) ::
    (stream place (k + 1) (Atom.words (d.slots.map Slot.atom)) ++ semicolon :: _)) = _
  rw [hkeyword, statementLength_slots d rfl hunbroken, hremaining, Declaration.atoms,
    List.length_cons, List.length_map]
  change k + (1 + (d.slots.length + if (place (k + d.atoms.length)).lineBefore then 0 else 1)) = _
  rw [Declaration.atoms, List.length_cons, List.length_map]
  omega

end TypeScriptEngine.ModuleSyntax
