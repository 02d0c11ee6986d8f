import TypeScriptEngine.Proofs.CommonJs.Layout
import TypeScriptEngine.Proofs.Emit.Cut
import TypeScriptEngine.Proofs.Emit.Erasing

/-! # Programs without ES modules

The code of a list of imports and export lists is the list of their statements (`program_rewrites`):
each declaration is replaced by statements that do what it asks for and nothing else (`Carries`).
The walk comes to each declaration at depth zero and at the start of a statement, because the one
before it ended in a semicolon and closed its brackets (`Closed`).
-/

namespace TypeScriptEngine.ModuleSyntax

open TypeScriptEngine.Text TokenStream CommonJs Placed
open Emit (Goal Draft Ready)

/-! ## Statements in the place of declarations -/

namespace Placed

/-- Whether the semicolon is on a line of its own, so that the statement stops before it. -/
def isSplit (p : Placed) : Bool := p.behind.contains '\n'

/-- The text that statements take the place of. -/
def cut (p : Placed) : List Char := p.statement ++ if p.isSplit then [] else p.behind ++ [';']

/-- What stays behind that. -/
def kept (p : Placed) : List Char := if p.isSplit then p.behind ++ [';'] else []

theorem textOf_cons (p : Placed) (ps : List Placed) (last : List Char) :
    textOf (p :: ps) last = p.gap ++ (p.cut ++ (p.kept ++ textOf ps last)) := by
  rw [textOf, cut, kept]
  cases p.isSplit <;> simp

end Placed

/-- The code of declarations: in the place of each stand statements that do what it asks for, with
the line breaks of its text behind them. -/
inductive Rewritten (declarator : String) : List Placed → List Char → List Char → Prop where
  | last {last : List Char} : Rewritten declarator [] last last
  | cons {p : Placed} {ps : List Placed} {last out : List Char} {temporary? : Option String}
      {code : List Code} (hcode : Carries p.declaration temporary? code)
      (hrest : Rewritten declarator ps last out) :
      Rewritten declarator (p :: ps) last
        (p.gap ++ ((Code.textOf declarator code).toList ++
          (List.replicate (lineBreaks p.cut) '\n' ++ (p.kept ++ out))))

/-- No declaration binds the name that is generated for its module object, when a number of names
have been generated before. -/
def Fresh (goal : Goal) : Nat → List Declaration → Prop
  | _, [] => True
  | n, d :: ds => (d.isDirect goal = false → d.temporary n ∉ d.bindings.map Prod.fst) ∧
    Fresh goal (if d.isDirect goal then n else n + 1) ds

/-- The code of declarations, when a number of names have been generated before. -/
def codeOf (goal : Goal) : Nat → List Placed → List Char → List Char
  | _, [], last => last
  | n, p :: ps, last =>
    p.gap ++ ((Code.textOf goal.declarator
        (p.declaration.code goal (p.declaration.temporary n))).toList ++
      (List.replicate (lineBreaks p.cut) '\n' ++ (p.kept ++
        codeOf goal (if p.declaration.isDirect goal then n else n + 1) ps last)))

/-- **The code does what the declarations ask for.** -/
theorem rewritten_codeOf (goal : Goal) {n : Nat} {ps : List Placed} (last : List Char)
    (hfresh : Fresh goal n (ps.map Placed.declaration)) :
    Rewritten goal.declarator ps last (codeOf goal n ps last) := by
  induction ps generalizing n with
  | nil => exact .last
  | cons p ps ih => exact .cons (p.declaration.code_carries goal hfresh.1) (ih hfresh.2)

/-! ## Visits -/

variable {goal : Goal} {place : Nat → TokenPlace} {ts : TokenStream} {pos k : Nat} {p : Placed}
  {ws : List Word}

/-- What an import is of does not begin with a parenthesis or a dot. -/
theorem kind_behind_import {default? : Option LocalName} {others? : Option Bindings}
    {source : StringLiteral}
    (h : Reads place ts k (Atom.words (Declaration.imports default? others? source).atoms ++ ws)) :
    ts.kind (k + 1) ≠ .lparen ∧ ts.kind (k + 1) ≠ .dot := by
  have hname : ∀ n : Name, ts.kind (k + 1) = n.atom.kind →
      ts.kind (k + 1) ≠ .lparen ∧ ts.kind (k + 1) ≠ .dot := by
    intro n hn
    rw [hn]
    exact ⟨n.kind_ne (by decide) (by decide), n.kind_ne (by decide) (by decide)⟩
  rcases default? with _ | n <;> rcases others? with _ | others
  case none.none =>
    have hstring : ts.kind (k + 1) = .stringLiteral := h.tail.kind
    simp [hstring]
  case none.some =>
    rw [atoms_others] at h
    rcases others.kind_head _ h.tail with hkind | hkind <;> simp [hkind]
  all_goals exact hname n.name h.tail.kind

/-- **A declaration is visited as a whole,** up to its semicolon or the line break before that. -/
theorem visit_declaration (hgoal : goal.commonJs = true) (h : Reads place ts k p.declaration.words)
    (hstands : p.StandsAt place pos k) (hstart : ts.startsStatement k = true)
    (hdepth : Emit.depthAt ts k = 0) (draft : Draft) : Emit.visit goal ts draft k =
      p.declaration.step goal draft.temporaries k
        (k + p.declaration.atoms.length + if p.isSplit then 0 else 1) := by
  have hstop := pastStatement_declaration p.declaration h hstands.unbroken
  rw [hstands.lineBefore] at hstop
  rw [isSplit, ← hstop]
  generalize p.declaration = d at h
  cases d with
  | imports default? others? source =>
    obtain ⟨hparen, hdot⟩ := kind_behind_import h
    have hkind : ts.kind k = .kwImport := h.kind
    rw [Emit.visit_of_beginsImport (by simp [Emit.beginsImport, hkind, hstart, hdepth, hparen, hdot]),
      importDeclaration_eq hgoal _ h]
  | exports list source? =>
    have hkind : ts.kind k = .kwExport := h.kind
    rw [Emit.visit_of_beginsExport (by simp [Emit.beginsExport, hkind, hstart, hdepth]),
      exportDeclaration_eq hgoal _ h]

/-! ## Brackets -/

/-- The number of open brackets behind tokens. -/
theorem foldl_depthAfter_balanced {ws : List Word} (h : Balanced ws) (k depth : Nat) :
    (stream place k ws).foldl (fun depth t => depthAfter depth t.kind) depth = depth := by
  induction h generalizing k depth with
  | nil => rfl
  | plain hopen hclose _ ih =>
    rw [stream_cons, List.foldl_cons, Word.token_kind, depthAfter, hopen, hclose]
    exact ih _ _
  | @group o c inner ws hpair _ _ ihinner ih =>
    have hopen := TokenKind.isOpener_of_closer? hpair
    have hclose := TokenKind.isCloser_of_closer? hpair
    have hopen' : c.kind.isOpener = false := Bool.eq_false_iff.mpr fun h =>
      TokenKind.ne_of_isOpener_of_isCloser h hclose rfl
    rw [stream_cons, List.foldl_cons, stream_append, List.foldl_append, ihinner, stream_cons,
      List.foldl_cons, ih]
    simp [depthAfter, hopen, hopen', hclose]

theorem NamedList.balanced_atoms (l : NamedList) : Balanced (Atom.words l.atoms) := by
  rw [NamedList.atoms, Atom.words_cons, Atom.words_append]
  exact @Balanced.group _ (Atom.sign .rbrace).toWord _ _ rfl l.balanced_inner .nil

theorem Bindings.balanced_atoms (b : Bindings) : Balanced (Atom.words b.atoms) := by
  cases b with
  | whole name =>
    refine balanced_words ?_
    exact List.forall_mem_cons.mpr ⟨⟨rfl, rfl⟩, List.forall_mem_cons.mpr
      ⟨⟨rfl, rfl⟩, List.forall_mem_singleton.mpr name.noBracket⟩⟩
  | named list => exact list.balanced_atoms

theorem balanced_from (source : StringLiteral) :
    Balanced (Atom.words ((fromSlots source).map Slot.atom)) :=
  .plain rfl rfl (.plain rfl rfl .nil)

theorem Declaration.balanced_words (d : Declaration) : Balanced d.words := by
  have hsemicolon : Balanced [(Atom.sign .semicolon).toWord] := .plain rfl rfl .nil
  refine Balanced.append ?_ hsemicolon
  rcases d with ⟨_ | n, _ | others, source⟩ | ⟨list, _ | source⟩
  · exact .plain rfl rfl (.plain rfl rfl .nil)
  · rw [atoms_others, Atom.words_cons, Atom.words_append]
    exact .plain rfl rfl (others.balanced_atoms.append (balanced_from source))
  · exact .plain rfl rfl (.plain n.name.noBracket.1 n.name.noBracket.2 (balanced_from source))
  · rw [atoms_both, Atom.words_cons, Atom.words_cons, Atom.words_cons, Atom.words_append]
    exact .plain rfl rfl (.plain n.name.noBracket.1 n.name.noBracket.2
      (.plain rfl rfl (others.balanced_atoms.append (balanced_from source))))
  · rw [atoms_exports, Atom.words_cons, Atom.words_append]
    exact .plain rfl rfl (list.balanced_atoms.append .nil)
  · rw [atoms_exports, Atom.words_cons, Atom.words_append]
    exact .plain rfl rfl (list.balanced_atoms.append (balanced_from source))

/-! ## Drafts -/

/-- What the walk has behind it when it comes to a declaration: brackets are closed, and the last
token is a semicolon. -/
structure Closed (front : TokenStream) : Prop where
  depth : front.foldl (fun depth t => depthAfter depth t.kind) 0 = 0
  ends : ∀ t ∈ front.getLast?, t.kind = .semicolon

theorem closed_nil : Closed [] := ⟨rfl, fun _ h => by contradiction⟩

namespace Closed

variable {front : TokenStream}

theorem append_words (h : Closed front) (d : Declaration) (place : Nat → TokenPlace) (k : Nat) :
    Closed (front ++ stream place k d.words) where
  depth := by rw [List.foldl_append, h.depth, foldl_depthAfter_balanced d.balanced_words]
  ends t ht := by
    rw [Declaration.words, stream_append, ← List.append_assoc] at ht
    simp only [stream_cons, stream_nil, List.getLast?_append, List.getLast?_singleton,
      Option.some_or, Option.mem_def, Option.some.injEq] at ht
    exact ht ▸ rfl

theorem depthAt (h : Closed front) (rest : TokenStream) :
    Emit.depthAt (front ++ rest) front.length = 0 := by
  rw [Emit.depthAt, List.take_left, h.depth]

theorem startsStatement (h : Closed front) (rest : TokenStream) :
    (front ++ rest).startsStatement front.length = true := by
  cases hlength : front.length with
  | zero => rfl
  | succ n =>
    have hlast : front.getLast? = front[n]? := by rw [List.getLast?_eq_getElem?, hlength]; rfl
    have hn : n < front.length := hlength ▸ Nat.lt_succ_self n
    have hkind : (front ++ rest).kind n = .semicolon := by
      rw [TokenStream.kind, List.getElem?_append_left hn, List.getElem?_eq_getElem hn]
      exact h.ends _ (by rw [hlast, List.getElem?_eq_getElem hn]; rfl)
    rw [TokenStream.startsStatement, hkind]
    rfl

end Closed

@[simp] theorem temporaries_claimTokens (d : Draft) (first n : Nat) :
    (d.claimTokens first n).temporaries = d.temporaries := by
  induction n generalizing d first with
  | zero => rfl
  | succ n ih => exact ih _ _

/-- What replacing tokens does to a draft that has claimed none of them. -/
theorem ready_replace {d : Draft} (hready : Ready ts d k) {stop : Nat} (hstop : k < stop)
    (hlast : stop ≤ ts.last) (text : String) :
    (d.apply ts (.replace k stop text)).edits =
        ⟨ts.startOf k, ts.stopOf (stop - 1), text.toList⟩ :: d.edits ∧
      Ready ts (d.apply ts (.replace k stop text)) stop ∧
      (d.apply ts (.replace k stop text)).temporaries = d.temporaries := by
  have hmax : max (min stop ts.last) (k + 1) = stop := by omega
  have happly : d.apply ts (.replace k stop text) =
      (d.addEdit ts k (stop - 1) text).claimTokens k (stop - k) := by
    rw [Draft.apply]
    simp only [hmax]
  rw [happly]
  refine ⟨Draft.edits_claimTokens .., ⟨fun j hj => ?_, ?_, ?_⟩, temporaries_claimTokens ..⟩
  · rw [Bool.eq_false_iff, ne_eq, Draft.isClaimed_claimTokens]
    rintro (hclaimed | hbounds)
    · exact Bool.false_ne_true (hready.free j (by omega) ▸ hclaimed)
    · omega
  · exact (Draft.size_claimTokens ..).trans hready.size
  · exact (Draft.classBodies_claimTokens ..).trans hready.bodies

/-- What a declaration does to a draft: it adds the edit that puts its statements there. -/
theorem applyAll_step (d : Declaration) {draft : Draft} (hready : Ready ts draft k) {stop : Nat}
    (hstop : k < stop) (hlast : stop ≤ ts.last) :
    let draft' := draft.applyAll ts (d.step goal draft.temporaries k stop).changes
    draft'.edits = ⟨ts.startOf k, ts.stopOf (stop - 1),
        (Code.textOf goal.declarator (d.code goal (d.temporary draft.temporaries))).toList⟩ ::
          draft.edits ∧
      Ready ts draft' stop ∧
      draft'.temporaries =
        if d.isDirect goal then draft.temporaries else draft.temporaries + 1 := by
  rw [Declaration.step]
  cases d.isDirect goal with
  | true => exact ready_replace hready hstop hlast _
  | false =>
    have hready' : Ready ts (draft.apply ts .useTemporary) k :=
      ⟨hready.free, hready.size, hready.bodies⟩
    exact ready_replace hready' hstop hlast _

/-! ## The walk -/

/-- What is scanned ends with the token for the end of the text. -/
theorem tokens_layOut_ne_nil (pos : Nat) (lineBefore : Bool) (ps : List Piece) :
    (Scan.layOut pos lineBefore ps).tokens ≠ [] := by
  intro h
  have hlast := Scan.layOut_getLast? pos lineBefore ps
  rw [h] at hlast
  contradiction

theorem Declaration.length_words (d : Declaration) : d.words.length = d.atoms.length + 1 := by
  simp [Declaration.words]

/-- Where the text begins and ends that a declaration takes the place of. -/
theorem Placed.span_cut (h : Reads place ts k p.declaration.words)
    (hstands : p.StandsAt place pos k) :
    ts.startOf k = pos + byteLength p.gap ∧
      ts.stopOf (k + p.declaration.atoms.length + (if p.isSplit then 0 else 1) - 1) =
        pos + byteLength p.gap + byteLength p.cut := by
  have hlength := p.declaration.length_words
  have hpos : 0 < p.declaration.atoms.length := Nat.succ_pos _
  have hsemicolon : byteLength [';'] = 1 := rfl
  refine ⟨(h.span (Nat.le_refl k) (by omega)).1.trans hstands.start, ?_⟩
  rw [cut]
  cases p.isSplit with
  | true =>
    rw [if_pos rfl, if_pos rfl, Nat.add_zero, List.append_nil,
      (h.span (by omega) (by omega)).2, hstands.stop]
  | false =>
    rw [if_neg (by decide), if_neg (by decide), Nat.add_sub_cancel,
      (h.span (by omega) (by omega)).2, hstands.semicolon, byteLength_append, byteLength_append,
      hsemicolon]
    omega

theorem Placed.byteLength_cut_kept (p : Placed) : byteLength p.cut + byteLength p.kept =
    byteLength p.statement + byteLength p.behind + 1 := by
  have hsemicolon : byteLength [';'] = 1 := rfl
  rw [cut, kept]
  cases p.isSplit <;> simp [hsemicolon, Nat.add_assoc]

/-- The edit that puts the statements for a declaration in its place. -/
def Placed.edit (goal : Goal) (temporaries pos : Nat) (p : Placed) : Edit where
  start := pos + byteLength p.gap
  stop := pos + byteLength p.gap + byteLength p.cut
  text := (Code.textOf goal.declarator
    (p.declaration.code goal (p.declaration.temporary temporaries))).toList

/-- **The walk over one declaration** makes the edit of that declaration. -/
theorem walk_placed (hgoal : goal.commonJs = true) {p : Placed} {front rest : TokenStream}
    {draft : Draft} (hts : ts = front ++ (stream place front.length p.declaration.words ++ rest))
    (hrest : rest ≠ []) (hstands : p.StandsAt place pos front.length) (hclosed : Closed front)
    (hready : Ready ts draft front.length) :
    ∃ draft', Emit.walk goal ts draft front.length =
        Emit.walk goal ts draft' (front.length + p.declaration.atoms.length + 1) ∧
      Ready ts draft' (front.length + p.declaration.atoms.length + 1) ∧
      draft'.edits = p.edit goal draft.temporaries pos :: draft.edits ∧
      draft'.temporaries = if p.declaration.isDirect goal then draft.temporaries
        else draft.temporaries + 1 := by
  let stop := front.length + p.declaration.atoms.length + if p.isSplit then 0 else 1
  have hpos : 0 < p.declaration.atoms.length := Nat.succ_pos _
  have hlast : front.length + p.declaration.atoms.length + 1 ≤ ts.last := by
    have hne := List.length_pos_of_ne_nil hrest
    rw [TokenStream.last, hts, List.length_append, List.length_append, length_stream,
      p.declaration.length_words]
    omega
  have hreads : Reads place ts front.length p.declaration.words :=
    ⟨rest, (congrArg (List.drop front.length) hts).trans List.drop_left⟩
  have hstop : front.length < stop ∧ stop ≤ front.length + p.declaration.atoms.length + 1 := by
    refine ⟨by omega, ?_⟩
    simp only [stop]
    split <;> omega
  have hvisit := visit_declaration hgoal hreads hstands
    (by rw [hts]; exact hclosed.startsStatement _) (by rw [hts]; exact hclosed.depthAt _) draft
  obtain ⟨hedits, hready', htemporaries⟩ :=
    @applyAll_step goal ts front.length p.declaration draft hready stop hstop.1 (hstop.2.trans hlast)
  generalize hdraft : draft.applyAll ts
    (p.declaration.step goal draft.temporaries front.length stop).changes = draft'
    at hedits hready' htemporaries
  obtain ⟨hstart, hend⟩ := p.span_cut hreads hstands
  refine ⟨draft', ?_, hready'.next hstop.2, ?_, htemporaries⟩
  · rw [Emit.walk_visit (by omega) (hready.free _ (Nat.le_refl _)), hvisit, hdraft]
    have hmax : max stop (front.length + 1) = stop := by omega
    change Emit.walk goal ts draft' (max stop (front.length + 1)) = _
    rw [hmax]
    -- what is between the statement and the next one is the semicolon at most
    refine Emit.walk_over hready'.bodies hlast hstop.2 fun j hj hlt => .inr ?_
    obtain rfl : j = front.length + p.declaration.atoms.length := by omega
    have hkind := (@Reads.right place ts front.length (Atom.words p.declaration.atoms) _ hreads).kind
    rw [Atom.length_words] at hkind
    rw [hkind]
    rfl
  · rw [hedits, hstart, hend]
    rfl

/-- **The walk over declarations puts the statements of each in its place.** -/
theorem walk_laid (hgoal : goal.commonJs = true) {ps : List Placed} {last : List Char}
    (h : Laid ps last) {front : TokenStream} {st : ScanState} {lineBefore : Bool} {draft : Draft}
    (hst : .substitution ∉ st.openings)
    (hts : ts = front ++ (Scan.layOut pos lineBefore (pieces st (textOf ps last))).tokens)
    (hclosed : Closed front) (hready : Ready ts draft front.length) :
    ∃ edits, (Emit.walk goal ts draft front.length).edits = edits.reverse ++ draft.edits ∧
      (∀ e ∈ edits, pos ≤ e.start) ∧ (edits.Pairwise fun e f => Edit.le e f = true) ∧
      Edit.splice pos (textOf ps last) edits = codeOf goal draft.temporaries ps last := by
  induction h generalizing front st lineBefore draft pos with
  | @last last hlast =>
    obtain ⟨place, q, htokens, _⟩ := hlast.exists_tokens hst pos lineBefore 0
    rw [textOf, htokens] at hts
    refine ⟨[], ?_, fun _ h => by contradiction, .nil, rfl⟩
    rw [Emit.walk, if_neg (by simp [hts, TokenStream.last])]
    rfl
  | @cons p ps last hgap hkeyword hbody hbehind hrest ih =>
    have hlaid : Laid (p :: ps) last := .cons hgap hkeyword hbody hbehind hrest
    obtain ⟨place, st', hst', htokens, hstands⟩ :=
      hlaid.exists_tokens hst pos front.length lineBefore
    rw [htokens] at hts
    obtain ⟨draft', hwalk, hready', hedits, htemporaries⟩ := walk_placed hgoal hts
      (tokens_layOut_ne_nil _ _ _) hstands hclosed hready
    let behind := pos + byteLength p.gap + byteLength p.statement + byteLength p.behind + 1
    have hlength : (front ++ stream place front.length p.declaration.words).length =
        front.length + p.declaration.atoms.length + 1 := by
      rw [List.length_append, length_stream, p.declaration.length_words, Nat.add_assoc]
    obtain ⟨edits, hrest, hstarts, hpairwise, hcode⟩ := @ih behind _ st' false draft' hst'
      (hts.trans (List.append_assoc ..).symm) (hclosed.append_words p.declaration place _)
      (hlength ▸ hready')
    let e := p.edit goal draft.temporaries pos
    have hbehind : pos + byteLength p.gap + byteLength p.cut + byteLength p.kept = behind := by
      have := p.byteLength_cut_kept
      simp only [behind]
      omega
    refine ⟨e :: edits, ?_, ?_, ?_, ?_⟩
    · rw [hwalk, ← hlength, hrest, hedits, List.reverse_cons, List.append_assoc]
      rfl
    · exact List.forall_mem_cons.mpr ⟨Nat.le_add_right _ _, fun f hf =>
        Nat.le_trans (by omega) (hstarts f hf)⟩
    · refine List.pairwise_cons.mpr ⟨fun f hf => ?_, hpairwise⟩
      have hlt : e.start < f.start :=
        Nat.lt_of_lt_of_le (by simp only [e, Placed.edit, behind]; omega) (hstarts f hf)
      simp [Edit.le, hlt]
    · rw [textOf_cons, show Edit.splice pos _ (e :: edits) = _ from Emit.splice_replace ..,
        Emit.splice_append (by rwa [hbehind]), hbehind, hcode, htemporaries]
      rfl

/-! ## The code -/

/-- The tokens of declarations begin with the word `import` or `export`, if there are any. -/
theorem isModule_of_laid {ps : List Placed} {last : List Char} (h : Laid ps last) :
    TokenStream.isModule (Scan.ofText (String.ofList (textOf ps last))).tokens = !ps.isEmpty := by
  rw [Scan.ofText, String.toList_ofList]
  cases h with
  | last hlast =>
    obtain ⟨place, q, htokens, _⟩ := @Rendered.exists_tokens _ _ _ hlast .initial (by decide) 0 true 0
    rw [textOf, htokens]
    rfl
  | @cons p ps last hgap hkeyword hbody hbehind hrest =>
    have hlaid : Laid (p :: ps) last := .cons hgap hkeyword hbody hbehind hrest
    obtain ⟨place, st', _, htokens, _⟩ := @Laid.exists_tokens _ _ _ hlaid .initial (by decide) 0 0 true
    generalize hts : (Scan.layOut 0 true (pieces .initial (textOf (p :: ps) last))).tokens = ts
    have hreads : Reads place ts 0 p.declaration.words := ⟨_, hts ▸ htokens⟩
    obtain ⟨t, rest, rfl⟩ : ∃ t rest, ts = t :: rest := by
      rw [← hts, htokens]
      exact ⟨_, _, rfl⟩
    have hkind : t.kind = p.declaration.keyword.atom.kind := hreads.kind
    generalize p.declaration = d at hreads hkind
    cases d with
    | imports default? others? source =>
      have hbehind := kind_behind_import hreads
      rw [TokenStream.kind_eq_headKind_drop] at hbehind
      have himport : t.kind = .kwImport := hkind
      simp [isModule, hasModuleSyntax, himport, TokenKind.isDot,
        show headKind rest ≠ .lparen from hbehind.1, show headKind rest ≠ .dot from hbehind.2]
    | exports list source? =>
      have hexport : t.kind = .kwExport := hkind
      simp [isModule, hasModuleSyntax, hexport]

theorem pairwise_le_cons_marker {edits : List Edit}
    (h : edits.Pairwise fun e f => Edit.le e f = true) (text : List Char) :
    ((⟨0, 0, text⟩ : Edit) :: edits).Pairwise fun e f => Edit.le e f = true := by
  refine List.pairwise_cons.mpr ⟨fun f _ => ?_, h⟩
  simp only [Edit.le, Bool.or_eq_true, Bool.and_eq_true, decide_eq_true_eq, beq_iff_eq]
  omega

/-- **The code of a list of imports and export lists** stands behind the marker of a module. -/
theorem program_laid {goal : Goal} (hgoal : goal.commonJs = true) {ps : List Placed}
    {last : List Char} (h : Laid ps last) :
    Emit.program goal (Scan.ofText (String.ofList (textOf ps last))).tokens (textOf ps last) =
      (if ps.isEmpty then [] else Emit.moduleMarker.toList) ++ codeOf goal 0 ps last := by
  generalize hts : (Scan.ofText (String.ofList (textOf ps last))).tokens = ts
  have hmarked := hts ▸ isModule_of_laid h
  have htokens : ts = [] ++ (Scan.layOut 0 true (pieces .initial (textOf ps last))).tokens := by
    rw [← hts, Scan.ofText, String.toList_ofList, List.nil_append]
  have hready : Ready ts (Emit.firstDraft goal ts) 0 := by
    unfold Emit.firstDraft
    simp only
    split <;> exact ⟨Draft.freeFrom_empty ts, Array.size_replicate, rfl⟩
  have htemporaries : (Emit.firstDraft goal ts).temporaries = 0 := by
    unfold Emit.firstDraft
    simp only
    split <;> rfl
  obtain ⟨edits, hedits, _, hpairwise, hcode⟩ := walk_laid hgoal h (by decide) htokens closed_nil hready
  rw [htemporaries] at hcode
  rw [Emit.program, Draft.finish]
  change Edit.applyAll (Emit.walk _ ts _ ([] : TokenStream).length).edits.reverse _ = _
  rw [hedits, List.reverse_append, List.reverse_reverse, Edit.applyAll, Emit.firstDraft, hgoal,
    hmarked, ← hcode]
  cases ps with
  | nil =>
    simp only [List.isEmpty_nil, Bool.not_true, Bool.and_false, Bool.false_eq_true, if_false, if_true]
    rw [Draft.empty, List.reverse_nil, List.nil_append, List.nil_append,
      List.mergeSort_of_pairwise hpairwise]
  | cons p ps =>
    simp only [List.isEmpty_cons, Bool.not_false, Bool.and_self, Bool.false_eq_true, if_false, if_true]
    rw [List.reverse_singleton, List.singleton_append,
      List.mergeSort_of_pairwise (pairwise_le_cons_marker hpairwise _)]
    exact @Emit.splice_replace 0 [] [] _ _ _

/-- **Imports and export lists become statements that do what they ask for,** with any comments and any
white space between their words, except that no line break stands before `from`, the source behind it
and the name of a namespace: each loads its module once, binds or assigns exactly the values that it
names, and mentions no type.  The name that is generated for a module object must not be one of those
that the declaration binds. -/
theorem program_rewrites {module : ModuleKind} (target : ScriptTarget)
    (hmodule : module.isEsModule = false) {ps : List Placed} {last : List Char} (h : Laid ps last)
    (hfresh : Fresh (Goal.of module target) 0 (ps.map Placed.declaration)) :
    ∃ out, Rewritten (Goal.of module target).declarator ps last out ∧
      Emit.program (Goal.of module target) (Scan.ofText (String.ofList (textOf ps last))).tokens
        (textOf ps last) = (if ps.isEmpty then [] else Emit.moduleMarker.toList) ++ out :=
  ⟨_, rewritten_codeOf _ last hfresh, program_laid (by simp [Goal.of, hmodule]) h⟩

/-! ## Declarations with spaces -/

/-- Slots with a space before each. -/
def spacedSlots : List Slot → List Char
  | [] => []
  | s :: ss => ' ' :: (s.atom.text ++ spacedSlots ss)

/-- A declaration with a space before each word. -/
def spaced (d : Declaration) : Placed := ⟨d, [], spacedSlots d.slots, [' ']⟩

theorem gap_space : Gap (fun _ => True) [' '] := .blank rfl .nil

theorem head?_spacedSlots (ss : List Slot) (rest : List Char) :
    (spacedSlots ss ++ (' ' :: rest)).head? = some ' ' := by
  cases ss <;> rfl

theorem endsBefore_spacedSlots (a : Atom) (ss : List Slot) (rest : List Char) :
    a.EndsBefore (spacedSlots ss ++ (' ' :: rest)) := by
  intro c hc
  rw [head?_spacedSlots] at hc
  exact Option.mem_some.mp hc ▸ a.goesOnWith_of_isBlank rfl

theorem written_spacedSlots (ss : List Slot) (rest : List Char) :
    Written ss (spacedSlots ss) (' ' :: rest) := by
  induction ss with
  | nil => exact .nil
  | cons s ss ih =>
    exact .cons gap_space (fun _ => by decide) (endsBefore_spacedSlots s.atom ss rest) ih

/-- **All declarations can be laid out.** -/
theorem laid_spaced (ds : List Declaration) : Laid (ds.map spaced) [] := by
  induction ds with
  | nil => exact .last (.gap .nil)
  | cons d ds ih =>
    exact .cons .nil (endsBefore_spacedSlots _ d.slots _) (written_spacedSlots d.slots _) gap_space ih

/-- The generated name for a source without backslashes. -/
theorem temporary_of_source {d : Declaration} (s : Source) (h : d.source? = some s.literal)
    (n : Nat) : d.temporary n = Emit.temporaryName s.specifier (n + 1) := by
  rw [Declaration.temporary, h]
  exact congrArg (Emit.temporaryName · (n + 1)) s.value_atom

/-- A word of module syntax that is a name. -/
def Keyword.name (k : Keyword) (himport : k.text ≠ "import".toList := by decide)
    (hexport : k.text ≠ "export".toList := by decide) : Name :=
  ⟨k.letters, fun h => himport (by rw [← h, String.toList_ofList]; rfl),
    fun h => hexport (by rw [← h, String.toList_ofList]; rfl)⟩

/-- An import whose names are words of module syntax, and an export list. -/
def smallImports : List Declaration :=
  [.imports (some ⟨Keyword.kwFrom.name, by decide⟩)
      (some (.named ⟨[⟨true, Keyword.kwAs.name, none⟩,
        ⟨false, Keyword.kwType.name, some Keyword.kwAs.name⟩,
        ⟨false, .ofText "y".toList, none⟩], true⟩)) (Source.ofText "./e".toList).literal,
    .exports ⟨[⟨false, .ofText "y".toList, some Keyword.kwType.name⟩,
      ⟨true, Keyword.kwType.name, none⟩], false⟩ none]

theorem program_rewrites_smallImports :
    ModuleKind.commonJs.isEsModule = false ∧ Laid (smallImports.map spaced) [] ∧
    Fresh (Goal.of .commonJs .es5) 0 ((smallImports.map spaced).map Placed.declaration) ∧
    textOf (smallImports.map spaced) [] =
      "import from , { type as , type as as , y , } from './e' ;export { y as type , type type } ;".toList ∧
    ∃ out, Rewritten (Goal.of .commonJs .es5).declarator (smallImports.map spaced) [] out ∧
      Emit.program (Goal.of .commonJs .es5)
        (Scan.ofText (String.ofList (textOf (smallImports.map spaced) []))).tokens
        (textOf (smallImports.map spaced) []) = Emit.moduleMarker.toList ++ out :=
  have hfresh : Fresh (Goal.of .commonJs .es5) 0
      ((smallImports.map spaced).map Placed.declaration) := by
    refine ⟨fun _ => ?_, fun _ => List.not_mem_nil, trivial⟩
    rw [temporary_of_source (.ofText "./e".toList) rfl]
    decide +kernel
  ⟨rfl, laid_spaced _, hfresh, by decide +kernel,
    program_rewrites .es5 rfl (laid_spaced smallImports) hfresh⟩

/-- An import of a value that has the name that is generated for the module. -/
def capturing : Declaration :=
  .imports none (some (.named ⟨[⟨false, .ofText "m_1".toList, none⟩,
    ⟨false, .ofText "x".toList, none⟩], false⟩)) (Source.ofText "./m".toList).literal

/-- **A generated name can be one of those that the declaration binds.**  Then what comes behind it is
not taken off the module any more. -/
theorem generated_name_captured :
    let text := textOf [spaced capturing] []
    let code : List Code := [.declare [("m_1", .require "'./m'")],
      .declare [("m_1", .member (.name "m_1") "m_1"), ("x", .member (.name "m_1") "x")]]
    text = "import { m_1 , x } from './m' ;".toList ∧
      Emit.program (Goal.of .commonJs .es5) (Scan.ofText (String.ofList text)).tokens text =
        Emit.moduleMarker.toList ++ (Code.textOf "var" code).toList ∧
      (Code.run code).read "x" ≠ .property (.module "'./m'") "x" := by
  refine ⟨by decide +kernel, (program_laid rfl (laid_spaced [capturing])).trans ?_, by decide⟩
  rw [List.map_singleton, codeOf, temporary_of_source (.ofText "./m".toList) rfl]
  decide +kernel

end TypeScriptEngine.ModuleSyntax
