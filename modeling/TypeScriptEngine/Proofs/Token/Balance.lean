import TypeScriptEngine.Proofs.Token.Spread
import TypeScriptEngine.Token.Statement

/-! # Balanced tokens and words

Tokens in which brackets are balanced (`Bracketed`) are passed over by the search for a closing
bracket (`closerOffset?_bracketed`).  Tokens in which angle brackets are balanced too
(`AngleBracketed`), and which hold nothing that type arguments cannot hold, are also passed over by
the search for a closing angle bracket (`angleOffset?_angleBracketed`).  Words are `Balanced` or
`Angled` in the same sense, and they are also passed over by the search for the end of a statement,
inside a bracket or at its top level (`statementLength_angled`).
-/

namespace TypeScriptEngine

open TokenStream

/-! ## Pairs of brackets -/

namespace TokenKind

theorem isOpener_of_closer? {o c : TokenKind} (h : o.closer? = some c) : o.isOpener = true := by
  unfold closer? at h
  split at h <;> first | rfl | contradiction

theorem isCloser_of_closer? {o c : TokenKind} (h : o.closer? = some c) : c.isCloser = true := by
  unfold closer? at h
  split at h <;> first | contradiction | obtain rfl := Option.some.inj h
  all_goals rfl

theorem isCloser_of_isOpener {k : TokenKind} (h : k.isOpener = true) : k.isCloser = false := by
  unfold isOpener at h
  split at h <;> first | rfl | contradiction

theorem closer?_inj {o o' c : TokenKind} (h : o.closer? = some c) (h' : o'.closer? = some c) :
    o = o' := by
  unfold closer? at h h'
  split at h <;> split at h' <;>
    first | rfl | contradiction | exact absurd (h.trans h'.symm) (by decide)

/-- An opening bracket is no closing one. -/
theorem ne_of_isOpener_of_isCloser {k k' : TokenKind} (h : k.isOpener = true)
    (h' : k'.isCloser = true) : k ≠ k' := by
  rintro rfl
  exact Bool.false_ne_true (isCloser_of_isOpener h ▸ h')

/-- Neither a bracket nor an angle bracket, and nothing that ends type arguments. -/
def isPlain (k : TokenKind) : Bool :=
  !k.isOpener && !k.isCloser && k != .lt && k != .gt && !endsTypeArguments k

/-- A kind with a property is none without it. -/
theorem ne_of_true_of_false {p : TokenKind → Bool} {k k' : TokenKind} (h : p k = true)
    (h' : p k' = false) : k ≠ k' := by
  rintro rfl
  exact Bool.false_ne_true (h' ▸ h)

theorem of_isPlain {k : TokenKind} (h : k.isPlain = true) :
    k.isOpener = false ∧ k.isCloser = false ∧ k ≠ .lt ∧ k ≠ .gt ∧ endsTypeArguments k = false := by
  simpa [isPlain, and_assoc] using h

end TokenKind

/-- Tokens in which brackets are balanced. -/
inductive TokenStream.Bracketed : TokenStream → Prop where
  | nil : Bracketed []
  | plain {t : Token} {ts : TokenStream} (hopen : t.kind.isOpener = false)
      (hclose : t.kind.isCloser = false) (h : Bracketed ts) : Bracketed (t :: ts)
  | group {o c : Token} {inner ts : TokenStream} (hpair : o.kind.closer? = some c.kind)
      (hinner : Bracketed inner) (h : Bracketed ts) : Bracketed (o :: (inner ++ c :: ts))

/-- Tokens in which brackets and angle brackets are balanced, with nothing that ends type arguments
outside brackets. -/
inductive TokenStream.AngleBracketed : TokenStream → Prop where
  | nil : AngleBracketed []
  | plain {t : Token} {ts : TokenStream} (hplain : t.kind.isPlain = true) (h : AngleBracketed ts) :
      AngleBracketed (t :: ts)
  | group {o c : Token} {inner ts : TokenStream} (hpair : o.kind.closer? = some c.kind)
      (hinner : Bracketed inner) (h : AngleBracketed ts) :
      AngleBracketed (o :: (inner ++ c :: ts))
  | angles {l g : Token} {inner ts : TokenStream} (hl : l.kind = .lt) (hg : g.kind = .gt)
      (hinner : AngleBracketed inner) (h : AngleBracketed ts) :
      AngleBracketed (l :: (inner ++ g :: ts))

/-- Words in which brackets are balanced. -/
inductive Balanced : List Word → Prop where
  | nil : Balanced []
  | plain {w : Word} {ws : List Word} (hopen : w.kind.isOpener = false)
      (hclose : w.kind.isCloser = false) (h : Balanced ws) : Balanced (w :: ws)
  | group {o c : Word} {inner ws : List Word} (hpair : o.kind.closer? = some c.kind)
      (hinner : Balanced inner) (h : Balanced ws) : Balanced (o :: (inner ++ c :: ws))

/-- Words in which brackets and angle brackets are balanced, with nothing that ends type arguments
outside brackets. -/
inductive Angled : List Word → Prop where
  | nil : Angled []
  | plain {w : Word} {ws : List Word} (hplain : w.kind.isPlain = true) (h : Angled ws) :
      Angled (w :: ws)
  | group {o c : Word} {inner ws : List Word} (hpair : o.kind.closer? = some c.kind)
      (hinner : Balanced inner) (h : Angled ws) : Angled (o :: (inner ++ c :: ws))
  | angles {l g : Word} {inner ws : List Word} (hl : l.kind = .lt) (hg : g.kind = .gt)
      (hinner : Angled inner) (h : Angled ws) : Angled (l :: (inner ++ g :: ws))

section

variable {ws ws' inner : List Word} {o c : Word}

theorem Balanced.append (h : Balanced ws) (h' : Balanced ws') : Balanced (ws ++ ws') := by
  induction h with
  | nil => exact h'
  | plain hopen hclose _ ih => exact .plain hopen hclose ih
  | group hpair hinner _ _ ih =>
    rw [List.cons_append, List.append_assoc]
    exact .group hpair hinner ih

theorem Angled.append (h : Angled ws) (h' : Angled ws') : Angled (ws ++ ws') := by
  induction h with
  | nil => exact h'
  | plain hplain _ ih => exact .plain hplain ih
  | group hpair hinner _ ih =>
    rw [List.cons_append, List.append_assoc]
    exact .group hpair hinner ih
  | angles hl hg hinner _ _ ih =>
    rw [List.cons_append, List.append_assoc]
    exact .angles hl hg hinner ih

theorem Angled.balanced (h : Angled ws) : Balanced ws := by
  induction h with
  | nil => exact .nil
  | plain hplain _ ih =>
    obtain ⟨hopen, hclose, _⟩ := TokenKind.of_isPlain hplain
    exact .plain hopen hclose ih
  | group hpair hinner _ ih => exact .group hpair hinner ih
  | angles hl hg _ _ ihinner ih =>
    exact .plain (hl ▸ rfl) (hl ▸ rfl) (ihinner.append (.plain (hg ▸ rfl) (hg ▸ rfl) ih))

/-- The tokens of balanced words are balanced. -/
theorem Balanced.bracketed (h : Balanced ws) (place : Nat → TokenPlace) (k : Nat) :
    Bracketed (stream place k ws) := by
  induction h generalizing k with
  | nil => exact .nil
  | plain hopen hclose _ ih => exact .plain hopen hclose (ih (k + 1))
  | group hpair _ _ ihinner ih =>
    rw [stream_cons, stream_append, stream_cons]
    exact .group hpair (ihinner _) (ih _)

theorem Angled.angleBracketed (h : Angled ws) (place : Nat → TokenPlace) (k : Nat) :
    AngleBracketed (stream place k ws) := by
  induction h generalizing k with
  | nil => exact .nil
  | plain hplain _ ih => exact .plain hplain (ih (k + 1))
  | group hpair hinner _ ih =>
    rw [stream_cons, stream_append, stream_cons]
    exact .group hpair (hinner.bracketed ..) (ih _)
  | angles hl hg _ _ ihinner ih =>
    rw [stream_cons, stream_append, stream_cons]
    exact .angles hl hg (ihinner _) (ih _)

end

/-! ## Searches that pass over balanced tokens -/

namespace TokenStream

variable {place : Nat → TokenPlace} {k : Nat} {ws inner : List Word} {o c : Word} {rest : TokenStream}

theorem length_group {α : Type} (o c : α) (inner ws : List α) :
    (o :: (inner ++ c :: ws)).length = ws.length + 1 + inner.length + 1 := by
  simp [Nat.add_comm, Nat.add_left_comm]

section

variable {opener closer : TokenKind} {t : Token}

theorem closerOffset?_opener (h : t.kind = opener) (depth : Nat) (rest : TokenStream) :
    closerOffset? opener closer depth (t :: rest) =
      (closerOffset? opener closer (depth + 1) rest).map (· + 1) := by
  cases depth <;> rw [closerOffset?, if_pos h]

theorem closerOffset?_closer (hne : closer ≠ opener) (h : t.kind = closer) (rest : TokenStream) :
    closerOffset? opener closer 0 (t :: rest) = some 0 := by
  rw [closerOffset?, h, if_neg hne, if_pos rfl]

theorem closerOffset?_closer_succ (hne : closer ≠ opener) (h : t.kind = closer) (depth : Nat)
    (rest : TokenStream) : closerOffset? opener closer (depth + 1) (t :: rest) =
      (closerOffset? opener closer depth rest).map (· + 1) := by
  rw [closerOffset?, h, if_neg hne, if_pos rfl]

theorem closerOffset?_other (hopen : t.kind ≠ opener) (hclose : t.kind ≠ closer) (depth : Nat)
    (rest : TokenStream) : closerOffset? opener closer depth (t :: rest) =
      (closerOffset? opener closer depth rest).map (· + 1) := by
  cases depth <;> rw [closerOffset?, if_neg hopen, if_neg hclose]

end

/-- **The search for a closing bracket passes over balanced tokens.** -/
theorem closerOffset?_bracketed {opener closer : TokenKind} (hpair : opener.closer? = some closer)
    {front : TokenStream} (h : Bracketed front) (depth : Nat) (rest : TokenStream) :
    closerOffset? opener closer depth (front ++ rest) =
      (closerOffset? opener closer depth rest).map (· + front.length) := by
  induction h generalizing depth rest with
  | nil => simp
  | @plain t ts hopen hclose _ ih =>
    have hopener : t.kind ≠ opener := by
      rintro rfl
      exact Bool.false_ne_true (hopen ▸ TokenKind.isOpener_of_closer? hpair)
    have hcloser : t.kind ≠ closer := by
      rintro rfl
      exact Bool.false_ne_true (hclose ▸ TokenKind.isCloser_of_closer? hpair)
    rw [List.cons_append, closerOffset?_other hopener hcloser, ih]
    simp only [Option.map_map, Function.comp_def, List.length_cons, Nat.add_assoc]
  | @group o c inner ts hpair' _ _ ihinner ih =>
    have hopens := TokenKind.isOpener_of_closer? hpair
    have hopens' := TokenKind.isOpener_of_closer? hpair'
    have hcloses := TokenKind.isCloser_of_closer? hpair
    have hcloses' := TokenKind.isCloser_of_closer? hpair'
    rw [List.cons_append, List.append_assoc, List.cons_append]
    by_cases hsame : o.kind = opener
    · -- the group is of the kind that is searched: it opens one more and closes it
      have hclosed : c.kind = closer := by
        rw [hsame, hpair] at hpair'
        exact (Option.some.inj hpair').symm
      rw [closerOffset?_opener hsame, ihinner, closerOffset?_closer_succ
        (TokenKind.ne_of_isOpener_of_isCloser hopens hcloses).symm hclosed, ih]
      simp only [Option.map_map, Function.comp_def, length_group, Nat.add_assoc]
    · have hother : c.kind ≠ closer := fun h => hsame (TokenKind.closer?_inj (h ▸ hpair') hpair)
      rw [closerOffset?_other hsame (TokenKind.ne_of_isOpener_of_isCloser hopens' hcloses), ihinner,
        closerOffset?_other (TokenKind.ne_of_isOpener_of_isCloser hopens hcloses').symm hother, ih]
      simp only [Option.map_map, Function.comp_def, length_group, Nat.add_assoc]

/-- A bracket is closed behind the balanced tokens in it. -/
theorem bracketSpan?_bracketed {o c : Token} {inner : TokenStream}
    (hpair : o.kind.closer? = some c.kind) (h : Bracketed inner) (rest : TokenStream) :
    bracketSpan? (o :: (inner ++ c :: rest)) = some (inner.length + 1) := by
  have hne := TokenKind.ne_of_isOpener_of_isCloser (TokenKind.isOpener_of_closer? hpair)
    (TokenKind.isCloser_of_closer? hpair)
  rw [bracketSpan?, hpair, Option.bind_some, closerOffset?_bracketed hpair h,
    closerOffset?_closer hne.symm rfl]
  simp

theorem bracketSpan?_group (hpair : o.kind.closer? = some c.kind) (h : Balanced inner)
    (place : Nat → TokenPlace) (k : Nat) (p p' : TokenPlace) (rest : TokenStream) :
    bracketSpan? (o.token p :: (stream place k inner ++ c.token p' :: rest)) =
      some (inner.length + 1) := by
  rw [bracketSpan?_bracketed hpair (h.bracketed place k), length_stream]

section

variable {ts : TokenStream}

theorem bracketSpan?_eq (hpair : o.kind.closer? = some c.kind) (hinner : Balanced inner)
    (h : Reads place ts k (o :: (inner ++ c :: ws))) :
    bracketSpan? (ts.drop k) = some (inner.length + 1) := by
  obtain ⟨rest, hrest⟩ := h
  simp only [stream_cons, stream_append, List.append_assoc, List.cons_append] at hrest
  rw [hrest, bracketSpan?_group hpair hinner]

theorem matching?_eq (hpair : o.kind.closer? = some c.kind) (hinner : Balanced inner)
    (h : Reads place ts k (o :: (inner ++ c :: ws))) :
    ts.matching? k = some (k + 1 + inner.length) := by
  rw [matching?, bracketSpan?_eq hpair hinner h, Option.map_some, Nat.add_assoc, Nat.add_comm 1]

end

section

variable {t : Token}

theorem angleOffset?_lt (h : t.kind = .lt) (depth : Nat) (rest : TokenStream) :
    angleOffset? depth (t :: rest) = (angleOffset? (depth + 1) rest).map (· + 1) := by
  cases depth <;> rw [angleOffset?, if_pos h]

theorem angleOffset?_gt (h : t.kind = .gt) (rest : TokenStream) :
    angleOffset? 0 (t :: rest) = some 0 := by
  rw [angleOffset?, h, if_neg (by decide), if_pos rfl]

theorem angleOffset?_gt_succ (h : t.kind = .gt) (depth : Nat) (rest : TokenStream) :
    angleOffset? (depth + 1) (t :: rest) = (angleOffset? depth rest).map (· + 1) := by
  rw [angleOffset?, h, if_neg (by decide), if_pos rfl]

theorem angleOffset?_plain (h : t.kind.isPlain = true) (depth : Nat) (rest : TokenStream) :
    angleOffset? depth (t :: rest) = (angleOffset? depth rest).map (· + 1) := by
  obtain ⟨hopen, _, hlt, hgt, hends⟩ := TokenKind.of_isPlain h
  cases depth <;> rw [angleOffset?, if_neg hlt, if_neg hgt, if_neg (by simp [hopen]),
    if_neg (by simp [hends])]

/-- Brackets are passed over. -/
theorem angleOffset?_bracketed {o c : Token} {inner : TokenStream}
    (hpair : o.kind.closer? = some c.kind) (h : Bracketed inner) (depth : Nat) (rest : TokenStream) :
    angleOffset? depth (o :: (inner ++ c :: rest)) =
      (angleOffset? depth rest).map (· + (inner.length + 1 + 1)) := by
  have hopen := TokenKind.isOpener_of_closer? hpair
  have hlt : o.kind ≠ .lt := fun h => by simp [h, TokenKind.isOpener] at hopen
  have hgt : o.kind ≠ .gt := fun h => by simp [h, TokenKind.isOpener] at hopen
  have hbehind : (inner ++ c :: rest).drop (inner.length + 1) = rest := by
    rw [← List.drop_drop, List.drop_left, List.drop_one, List.tail_cons]
  cases depth <;> rw [angleOffset?, if_neg hlt, if_neg hgt, if_pos hopen,
    bracketSpan?_bracketed hpair h, Option.bind_some, hbehind]

theorem angleOffset?_group (hpair : o.kind.closer? = some c.kind) (h : Balanced inner)
    (place : Nat → TokenPlace) (k : Nat) (p p' : TokenPlace) (depth : Nat) (rest : TokenStream) :
    angleOffset? depth (o.token p :: (stream place k inner ++ c.token p' :: rest)) =
      (angleOffset? depth rest).map (· + (inner.length + 1 + 1)) := by
  rw [angleOffset?_bracketed hpair (h.bracketed place k), length_stream]

end

/-- **The search for a closing angle bracket passes over tokens with balanced ones.** -/
theorem angleOffset?_angleBracketed {front : TokenStream} (h : AngleBracketed front) (depth : Nat)
    (rest : TokenStream) : angleOffset? depth (front ++ rest) =
      (angleOffset? depth rest).map (· + front.length) := by
  induction h generalizing depth rest with
  | nil => simp
  | @plain t ts hplain _ ih =>
    rw [List.cons_append, angleOffset?_plain hplain, ih]
    simp only [Option.map_map, Function.comp_def, List.length_cons, Nat.add_assoc]
  | @group o c inner ts hpair hinner _ ih =>
    rw [List.cons_append, List.append_assoc, List.cons_append, angleOffset?_bracketed hpair hinner, ih]
    simp only [Option.map_map, Function.comp_def, length_group, Nat.add_assoc,
      Nat.add_left_comm 1]
  | @angles l g inner ts hl hg _ _ ihinner ih =>
    rw [List.cons_append, List.append_assoc, List.cons_append, angleOffset?_lt hl, ihinner,
      angleOffset?_gt_succ hg, ih]
    simp only [Option.map_map, Function.comp_def, length_group, Nat.add_assoc]

/-- An angle bracket is closed behind the tokens in it. -/
theorem angleSpan?_angleBracketed {l g : Token} {inner : TokenStream} (hl : l.kind = .lt)
    (hg : g.kind = .gt) (h : AngleBracketed inner) (rest : TokenStream) :
    angleSpan? (l :: (inner ++ g :: rest)) = some (inner.length + 1) := by
  rw [angleSpan?, if_pos hl, angleOffset?_angleBracketed h, angleOffset?_gt hg]
  simp

theorem angleSpan?_angles {l g : Word} (hl : l.kind = .lt) (hg : g.kind = .gt) (h : Angled inner)
    (place : Nat → TokenPlace) (k : Nat) (p p' : TokenPlace) (rest : TokenStream) :
    angleSpan? (l.token p :: (stream place k inner ++ g.token p' :: rest)) =
      some (inner.length + 1) := by
  rw [angleSpan?_angleBracketed hl hg (h.angleBracketed place k), length_stream]

/-! ## The end of a statement -/

/-- Inside a bracket the search for the end of a statement passes over balanced words. -/
theorem statementLength_balanced (h : Balanced ws) (k depth : Nat) (rest : TokenStream) :
    statementLength (depth + 1) (stream place k ws ++ rest) =
      ws.length + statementLength (depth + 1) rest := by
  have hstep : ∀ (w : Word) (j depth depth' : Nat) (rest : TokenStream),
      depthAfter (depth + 1) w.kind = depth' + 1 →
        statementLength (depth + 1) (w.token (place j) :: rest) =
          1 + statementLength (depth' + 1) rest := by
    intro w j depth depth' rest hdepth
    rw [statementLength, Word.token_kind, if_neg w.spells.kind_ne_eof, if_neg (by simp),
      if_neg (by simp), hdepth, if_neg (by simp)]
  induction h generalizing k depth rest with
  | nil => simp
  | @plain w ws hopen hclose _ ih =>
    rw [stream_cons, List.cons_append, hstep w k depth depth _ (by simp [depthAfter, hopen, hclose]),
      ih, List.length_cons]
    omega
  | @group o c inner ws hpair _ _ ihinner ih =>
    have hopen := TokenKind.isOpener_of_closer? hpair
    have hclose := TokenKind.isCloser_of_closer? hpair
    have hopen' : c.kind.isOpener = false := Bool.eq_false_iff.mpr fun h =>
      TokenKind.ne_of_isOpener_of_isCloser h hclose rfl
    rw [stream_cons, stream_append, stream_cons, List.cons_append, List.append_assoc,
      List.cons_append, hstep o k depth (depth + 1) _ (by simp [depthAfter, hopen]), ihinner,
      hstep c _ (depth + 1) depth _ (by simp [depthAfter, hopen', hclose]), ih]
    simp only [List.length_cons, List.length_append]
    omega

theorem headLineBefore_stream (hflat : Flat place) (hk : 0 < k)
    (hrest : headLineBefore rest = false) : headLineBefore (stream place k ws ++ rest) = false := by
  cases ws with
  | nil => exact hrest
  | cons w ws => exact hflat k hk

/-- What does not end a statement is passed over, if no line break comes behind it. -/
theorem statementLength_step {w : Word} {p : TokenPlace} {depth : Nat} {rest : TokenStream}
    (hclose : w.kind.isCloser = true → 0 < depth) (hsemicolon : w.kind ≠ .semicolon)
    (hline : headLineBefore rest = false) : statementLength depth (w.token p :: rest) =
      1 + statementLength (depthAfter depth w.kind) rest := by
  rw [statementLength, Word.token_kind, if_neg w.spells.kind_ne_eof,
    if_neg fun h => Nat.ne_of_gt (hclose h.1) h.2, if_neg fun h => hsemicolon h.1,
    if_neg (by simp [breaksAfter, hline])]

/-- **The search for the end of a statement passes over words on its line** with balanced brackets,
among which there is no semicolon outside them. -/
theorem statementLength_angled (hflat : Flat place) (h : Angled ws) (hk : 0 < k)
    (hrest : headLineBefore rest = false) :
    statementLength 0 (stream place k ws ++ rest) = ws.length + statementLength 0 rest := by
  have hplain : ∀ {w : Word}, w.kind.isPlain = true →
      w.kind.isCloser ≠ true ∧ w.kind ≠ .semicolon ∧ depthAfter 0 w.kind = 0 := by
    intro w hw
    obtain ⟨hopen, hclose, _, _, hends⟩ := TokenKind.of_isPlain hw
    refine ⟨by simp [hclose], fun h => ?_, by simp [depthAfter, hopen]⟩
    simp [h, endsTypeArguments] at hends
  induction h generalizing k rest with
  | nil => simp
  | @plain w ws hw _ ih =>
    obtain ⟨hclose, hsemicolon, hdepth⟩ := hplain hw
    rw [stream_cons, List.cons_append, statementLength_step (fun h => absurd h hclose) hsemicolon
        (headLineBefore_stream hflat (Nat.succ_pos k) hrest), hdepth,
      ih (Nat.succ_pos k) hrest, List.length_cons]
    omega
  | @group o c inner ws hpair hinner _ ih =>
    have hopen := TokenKind.isOpener_of_closer? hpair
    have hclose := TokenKind.isCloser_of_closer? hpair
    have hopen' : c.kind.isOpener ≠ true := fun h =>
      TokenKind.ne_of_isOpener_of_isCloser h hclose rfl
    have hsemicolon : o.kind ≠ .semicolon := fun h => by simp [h, TokenKind.isOpener] at hopen
    have hsemicolon' : c.kind ≠ .semicolon := fun h => by simp [h, TokenKind.isCloser] at hclose
    have hdepth : depthAfter 0 o.kind = 1 := by simp [depthAfter, hopen]
    have hdepth' : depthAfter 1 c.kind = 0 := by simp [depthAfter, hopen', hclose]
    rw [stream_cons, List.cons_append, statementLength_step
        (fun h => absurd rfl (TokenKind.ne_of_isOpener_of_isCloser hopen h)) hsemicolon
        (headLineBefore_stream hflat (Nat.succ_pos k) hrest), hdepth, stream_append,
      List.append_assoc, statementLength_balanced hinner, stream_cons, List.cons_append,
      statementLength_step (fun _ => Nat.one_pos) hsemicolon'
        (headLineBefore_stream hflat (Nat.succ_pos _) hrest), hdepth', ih (Nat.succ_pos _) hrest,
      length_group]
    omega
  | @angles l g inner ws hl hg _ _ ihinner ih =>
    have hrest' : headLineBefore (stream place (k + 1 + inner.length) (g :: ws) ++ rest) = false :=
      headLineBefore_stream hflat (by omega) hrest
    rw [stream_cons, List.cons_append, statementLength_step (by simp [hl, TokenKind.isCloser])
        (by simp [hl]) (headLineBefore_stream hflat (Nat.succ_pos k) hrest), hl, stream_append,
      List.append_assoc, show depthAfter 0 .lt = 0 from rfl, ihinner (Nat.succ_pos k) hrest',
      stream_cons, List.cons_append, statementLength_step (by simp [hg, TokenKind.isCloser])
        (by simp [hg]) (headLineBefore_stream hflat (Nat.succ_pos _) hrest), hg,
      show depthAfter 0 .gt = 0 from rfl, ih (Nat.succ_pos _) hrest, length_group]
    omega

end TokenStream

end TypeScriptEngine
