import TypeScriptEngine.Proofs.Emit.Cut
import TypeScriptEngine.Proofs.Emit.Lines

/-! # Passes over a text

A pass of the emitter makes code from a text.  With ES modules it leaves the text alone or shortens
it (`pass_eq_or_lt`), so that passes over what is left settle (`exists_settled`).  A text is left
alone just if no edit is made (`program_eq_iff`).  None is made if no token of it has anything
proposed for it (`program_of_silent`), while the first token for which something is proposed leaves
an edit if it only erases (`edits_walk_ne_nil`).
-/

namespace TypeScriptEngine.Emit

open TokenStream TypeScriptEngine.Text

variable {goal : Goal} {ts : TokenStream} {d : Draft} {text : String} {word : List Char}
  {places : Nat → Prop} {i k n m first stop : Nat}

/-! ## Texts that are left alone -/

/-- Nothing is proposed for a token as long as nothing was changed before. -/
def Silent (goal : Goal) (ts : TokenStream) (i : Nat) : Prop :=
  (visit goal ts (.empty ts) i).changes = []

theorem program_of_edits (h : (walk goal ts (firstDraft goal ts) 0).edits = []) (text : List Char) :
    program goal ts text = text := by
  rw [program, Draft.finish, h, List.reverse_nil, Edit.applyAll, List.mergeSort_nil, Edit.splice]

/-- **What is silent is left alone.** -/
theorem program_of_silent (hgoal : goal.commonJs = false) (h : ∀ i < ts.last, Silent goal ts i)
    (text : List Char) : program goal ts text = text := by
  have hwalk : walk goal ts (firstDraft goal ts) 0 = .empty ts := by
    refine walk_induction (P := fun d => d = .empty ts) (firstDraft_of_esModule hgoal) ?_
    rintro _ i hvisits rfl
    rw [h i hvisits.lt_last]
    rfl
  exact program_of_edits (by rw [hwalk]; rfl) text

/-! ## Shorter texts -/

theorem length_declarator_lt (module : ModuleKind) (target : ScriptTarget) :
    (Goal.of module target).declarator.toList.length < importWord.length := by
  have hall : ∀ word ∈ ["var", "const"], word.toList.length < importWord.length := by decide
  exact hall _ (declarator_of module target)

/-- A text that is reduced with shorter words is shorter, unless it is the same. -/
theorem Reduced.eq_or_length_lt {word as bs : List Char} {places : Nat → Prop} {pos : Nat}
    (hword : word.length < importWord.length) (h : Reduced word places pos as bs) :
    bs = as ∨ bs.length < as.length := by
  induction h with
  | nil pos => exact .inl rfl
  | keep c _ ih => exact ih.imp (congrArg (c :: ·)) Nat.succ_lt_succ
  | delete _ _ ih =>
    rcases ih with rfl | ih
    · exact .inr (Nat.lt_succ_self _)
    · exact .inr (Nat.lt_succ_of_lt ih)
  | rename _ _ ih =>
    have hle := ih.elim (fun h => Nat.le_of_eq (congrArg List.length h)) Nat.le_of_lt
    rw [List.length_append, List.length_append]
    exact .inr (Nat.add_lt_add_of_lt_of_le hword hle)

theorem Reduced.length_le {word as bs : List Char} {places : Nat → Prop} {pos : Nat}
    (hword : word.length < importWord.length) (h : Reduced word places pos as bs) :
    bs.length ≤ as.length :=
  (h.eq_or_length_lt hword).elim (fun h => Nat.le_of_eq (congrArg List.length h)) Nat.le_of_lt

/-- What an edit puts in the place of what it cuts out is shorter, if that is more than line feeds. -/
theorem Reduces.length_lt {before cut after : List Char} {e : Edit}
    (hword : word.length < importWord.length)
    (h : Reduces word places (before ++ (cut ++ after)) e) (hstart : e.start = byteLength before)
    (hstop : e.stop = byteLength (before ++ cut)) (hcut : ∃ c ∈ cut, c ≠ '\n') :
    e.text.length + lineBreaks cut < cut.length := by
  have hlength : (e.text ++ List.replicate (lineBreaks cut) '\n').length =
      e.text.length + lineBreaks cut := by
    rw [List.length_append, List.length_replicate]
  rcases (h.reduced hstart hstop).eq_or_length_lt hword with heq | hlt
  · rcases h.text with htext | ⟨htext, _, hslice⟩
    · obtain ⟨c, hc, hne⟩ := hcut
      rw [← heq, htext, List.nil_append] at hc
      exact absurd (List.eq_of_mem_replicate hc) hne
    · have hcut : cut = importWord := by
        rw [← sliceBytes_append before cut after, ← hstart, ← hstop, hslice]
      have hlonger : word.length < cut.length := hcut ▸ hword
      rw [← heq, htext, hcut, lineBreaks, List.count_eq_zero.mpr not_mem_importWord,
        List.replicate_zero, List.append_nil] at hlonger
      exact absurd hlonger (Nat.lt_irrefl _)
  · exact hlength ▸ hlt

/-- **Edits shorten a text** if each of them cuts out more than line feeds. -/
theorem length_applyAll_lt {edits : List Edit} {text : List Char}
    (hword : word.length < importWord.length) (h : ∀ e ∈ edits, Reduces word places text e)
    (hcut : ∀ e ∈ edits, ∃ c ∈ sliceBytes e.start e.stop text, c ≠ '\n') (hne : edits ≠ []) :
    (Edit.applyAll edits text).length < text.length := by
  have hsorted : ∀ e ∈ edits.mergeSort Edit.le, e ∈ edits := fun e he => List.mem_mergeSort.mp he
  rw [Edit.applyAll]
  cases hedits : edits.mergeSort Edit.le with
  | nil =>
    have hlength := congrArg List.length hedits
    rw [List.length_mergeSort] at hlength
    exact absurd (List.length_eq_zero_iff.mp hlength) hne
  | cons e es =>
    rw [hedits] at hsorted
    have he := h e (hsorted e (List.mem_cons_self ..))
    have hcut := hcut e (hsorted e (List.mem_cons_self ..))
    -- the first edit is carried out, whatever becomes of the others
    obtain ⟨kept, after, rfl, hstart, hkept⟩ :=
      @Boundary.exists_split [] _ _ he.start (Nat.zero_le _)
    obtain ⟨cut, rest, rfl, hstop, hsplit⟩ := he.stop.exists_split (hstart ▸ he.le)
    have hrest := (@reduced_splice word places (kept ++ cut) rest es fun f hf => by
      rw [List.append_assoc]
      exact h f (hsorted f (List.mem_cons_of_mem _ hf))).length_le hword
    rw [List.nil_append] at hstart
    rw [byteLength_nil, Nat.sub_zero] at hkept
    rw [hstart, hstop, sliceBytes_append] at hcut
    have hlt := he.length_lt hword hstart hstop hcut
    rw [Edit.splice, if_neg (Nat.not_lt_zero _), Nat.sub_zero, hkept]
    simp only [hstart, hsplit, List.length_append, List.length_replicate]
    rw [hstop]
    omega

/-- What an edit of a walk cuts out is more than line feeds, since a token begins there. -/
theorem exists_mem_cut (hgoal : goal.commonJs = false) {e : Edit}
    (he : e ∈ (walk goal (Scan.ofText text).tokens
      (firstDraft goal (Scan.ofText text).tokens) 0).edits) :
    ∃ c ∈ sliceBytes e.start e.stop text.toList, c ≠ '\n' := by
  have hink : ∀ {i j : Nat}, i ≤ j → j < last (Scan.ofText text).tokens →
      ∃ c ∈ sliceBytes (startOf (Scan.ofText text).tokens i)
        (stopOf (Scan.ofText text).tokens j) text.toList, c ≠ '\n' := by
    intro i j hij hj
    obtain ⟨c, hc, hblank⟩ := Scan.exists_mem_slice hij hj
    refine ⟨c, hc, ?_⟩
    rintro rfl
    contradiction
  rcases mem_edits_walk he with ⟨hcommonJs, _⟩ | ⟨d, i, hvisits, c, hc, hmakes⟩
  · rw [hgoal] at hcommonJs
    contradiction
  · rcases newText?_of_esModule hgoal hc with hnone | ⟨_, rfl⟩
    · cases c with
      | erase first stop =>
        obtain ⟨a, b, _, hlt, hle, rfl⟩ := hmakes
        exact hink (Nat.le_sub_one_of_lt hlt) (by omega)
      | replace first stop text => contradiction
      | insertAfter i text => contradiction
      | claim first stop => contradiction
      | openClassBody i => contradiction
      | useTemporary => contradiction
    · obtain rfl := hmakes
      have hlt := hvisits.lt_last
      exact hink (show i ≤ _ by omega) (by omega)

/-- **A text is left alone just if no edit is made.** -/
theorem program_eq_iff (hgoal : goal.commonJs = false)
    (hword : goal.declarator.toList.length < importWord.length) :
    program goal (Scan.ofText text).tokens text.toList = text.toList ↔
      (walk goal (Scan.ofText text).tokens (firstDraft goal (Scan.ofText text).tokens) 0).edits = [] := by
  refine ⟨fun heq => Decidable.byContradiction fun hne => ?_, fun h => program_of_edits h _⟩
  have hlt := length_applyAll_lt hword
    (fun e he => reduces_of_esModule hgoal (List.mem_reverse.mp he))
    (fun e he => exists_mem_cut hgoal (List.mem_reverse.mp he)) (mt List.reverse_eq_nil_iff.mp hne)
  rw [program, Draft.finish] at heq
  rw [heq] at hlt
  exact Nat.lt_irrefl _ hlt

/-! ## The first change -/

theorem importDeclaration_ne_nil (temporaries i : Nat) :
    (importDeclaration goal ts temporaries i).changes ≠ [] := by
  unfold importDeclaration importEquals
  simp only
  split
  · simp
  · split
    · split <;> simp
    · split <;> simp

theorem next_of_exportEsModule (h : (exportEsModule ts i).changes = []) :
    (exportEsModule ts i).next = i + 1 := by
  unfold exportEsModule at h ⊢
  simp only at h ⊢
  split <;> simp_all

theorem next_of_exportDeclaration (hgoal : goal.commonJs = false) {temporaries : Nat}
    (h : (exportDeclaration goal ts temporaries i).changes = []) :
    (exportDeclaration goal ts temporaries i).next = i + 1 := by
  unfold exportDeclaration at h ⊢
  simp only [hgoal] at h ⊢
  split at h
  · contradiction
  · exact next_of_exportEsModule h

/-- The walk goes on with the next token behind one that nothing is proposed for. -/
theorem next_of_silent (hgoal : goal.commonJs = false) (h : Silent goal ts i) :
    (visit goal ts (.empty ts) i).next = i + 1 := by
  have hpass : (Step.proposing [] i).changes = [] → (Step.proposing [] i).next = i + 1 :=
    fun _ => rfl
  have herase (stop : Nat) : (Step.erasing i stop).changes = [] →
      (Step.erasing i stop).next = i + 1 := fun h => by cases h
  have hguard (p : Prop) [Decidable p] (stop : Nat) :
      (if p then Step.erasing i stop else Step.proposing [] i).changes = [] →
        (if p then Step.erasing i stop else Step.proposing [] i).next = i + 1 := by
    split
    · exact herase stop
    · exact hpass
  have hproposing (changes : List Change) : (Step.proposing changes i).changes = [] →
      (Step.proposing changes i).next = i + 1 := fun _ => rfl
  revert h
  unfold Silent visit
  simp only
  cases ts.kind i with
  | kwImport =>
    simp only
    split
    · exact fun h => absurd h (importDeclaration_ne_nil _ i)
    · exact hpass
  | kwExport =>
    simp only
    split
    · exact next_of_exportDeclaration hgoal
    · exact hpass
  | kwInterface => exact hguard _ _
  | kwType => exact hguard _ _
  | kwDeclare => exact hguard _ _
  | kwAbstract => exact hguard _ _
  | kwFunction =>
    cases overloadEnd? ts i with
    | some stop => exact hguard _ _
    | none => exact hpass
  | kwClass => exact hproposing _
  | lbrace =>
    simp only
    split
    · exact hproposing _
    · exact hpass
  | lparen =>
    simp only
    split
    · exact hproposing _
    · exact hpass
  | lt =>
    cases typeArguments? ts i with
    | some stop => exact herase stop
    | none => exact hpass
  | kwVar => exact hproposing _
  | kwLet => exact hproposing _
  | kwConst => exact hproposing _
  | kwAs => exact hguard _ _
  | kwSatisfies => exact hguard _ _
  | bang => exact hguard _ _
  | _ => exact hpass

/-- Something is proposed, and all that is proposed is to erase tokens; at least one is erased. -/
structure Erases (goal : Goal) (ts : TokenStream) (i : Nat) : Prop where
  onlyErases : OnlyErases (visit goal ts (.empty ts) i).changes
  exists_mem : ∃ first stop, .erase first stop ∈ (visit goal ts (.empty ts) i).changes ∧
    first < stop ∧ first < ts.last

namespace Draft

/-- An erasure leaves an edit, unless it does nothing or finds its tokens claimed. -/
theorem apply_erase_of_freeFrom (h : d.FreeFrom 0) (first stop : Nat) :
    d.apply ts (.erase first stop) = d ∧ ¬(first < stop ∧ first < ts.last) ∨
      (d.apply ts (.erase first stop)).edits ≠ [] := by
  cases hn : min stop ts.last - first with
  | zero =>
    refine .inl ⟨?_, by omega⟩
    rw [apply, hn]
    rfl
  | succ n =>
    right
    have hruns : d.freeRuns first none (n + 1) = [(first, first + 1 + n)] := by
      rw [freeRuns, h first (Nat.zero_le _), if_neg (by decide), Option.getD_none,
        freeRuns_of_freeFrom (h.mono (Nat.zero_le _))]
    rw [apply, hn, edits_claimTokens, hruns]
    exact List.cons_ne_nil _ _

/-- Erasures that find nothing claimed leave an edit if one of them erases something. -/
theorem edits_applyAll_ne_nil {changes : List Change} (h : d.FreeFrom 0) (honly : OnlyErases changes)
    (hmem : .erase first stop ∈ changes) (hstop : first < stop) (hlast : first < ts.last) :
    (d.applyAll ts changes).edits ≠ [] := by
  induction changes with
  | nil => contradiction
  | cons c changes ih =>
    obtain ⟨hc, htail⟩ := onlyErases_cons.mp honly
    cases c with
    | erase first' stop' =>
      show ((d.apply ts (.erase first' stop')).applyAll ts changes).edits ≠ []
      rcases apply_erase_of_freeFrom h first' stop' with ⟨happly, hnothing⟩ | hne
      · rw [happly]
        refine ih htail ((List.mem_cons.mp hmem).resolve_left fun heq => ?_)
        obtain ⟨rfl, rfl⟩ := Change.erase.inj heq
        exact hnothing ⟨hstop, hlast⟩
      · exact (edits_suffix_applyAll _ changes).ne_nil hne
    | _ => exact absurd hc Bool.false_ne_true

end Draft

/-- The walk comes to a token with nothing changed if nothing is proposed for those before it. -/
theorem walk_of_silent (hgoal : goal.commonJs = false) (hi : i ≤ ts.last)
    (h : ∀ j < i, Silent goal ts j) : walk goal ts (.empty ts) 0 = walk goal ts (.empty ts) i := by
  induction i with
  | zero => rfl
  | succ i ih =>
    rw [ih (Nat.le_of_succ_le hi) fun j hj => h j (Nat.lt_succ_of_lt hj),
      walk_visit hi (Draft.freeFrom_empty ts _ (Nat.le_refl i)), h i (Nat.lt_succ_self i),
      next_of_silent hgoal (h i (Nat.lt_succ_self i)), Nat.max_self]
    rfl

/-- **The first token that something is proposed for leaves an edit** if it only erases. -/
theorem edits_walk_ne_nil (hgoal : goal.commonJs = false) (hi : i < ts.last)
    (h : ∀ j < i, Silent goal ts j) (herases : Erases goal ts i) :
    (walk goal ts (firstDraft goal ts) 0).edits ≠ [] := by
  obtain ⟨honly, first, stop, hmem, hstop, hlast⟩ := herases
  rw [firstDraft_of_esModule hgoal, walk_of_silent hgoal hi.le h,
    walk_visit hi (Draft.freeFrom_empty ts _ (Nat.le_refl i))]
  exact (edits_suffix_walk _ _).ne_nil
    (Draft.edits_applyAll_ne_nil (Draft.freeFrom_empty ts) honly hmem hstop hlast)

/-- The `n` tokens from `k` on are silent if the flag says so, and otherwise the first of them for
which something is proposed erases. -/
def SilentIf (goal : Goal) (ts : TokenStream) (k n : Nat) : Bool → Prop
  | true => ∀ i, k ≤ i → i < k + n → Silent goal ts i
  | false => ∃ i, k ≤ i ∧ i < k + n ∧ Erases goal ts i ∧ ∀ j, k ≤ j → j < i → Silent goal ts j

namespace SilentIf

variable {b b' : Bool}

theorem append (h : SilentIf goal ts k n b) (h' : SilentIf goal ts (k + n) m b') :
    SilentIf goal ts k (n + m) (b && b') := by
  cases b with
  | false =>
    obtain ⟨i, hk, hi, hbefore⟩ := h
    exact ⟨i, hk, by omega, hbefore⟩
  | true =>
    cases b' with
    | true =>
      intro i hk hi
      by_cases hlt : i < k + n
      · exact h i hk hlt
      · exact h' i (Nat.not_lt.mp hlt) (by omega)
    | false =>
      obtain ⟨i, hk, hi, herases, hbefore⟩ := h'
      refine ⟨i, by omega, by omega, herases, fun j hk hj => ?_⟩
      by_cases hlt : j < k + n
      · exact h j hk hlt
      · exact hbefore j (Nat.not_lt.mp hlt) hj

theorem one (h : if b then Silent goal ts k else Erases goal ts k) : SilentIf goal ts k 1 b := by
  cases b with
  | true =>
    intro i hk hi
    obtain rfl : i = k := by omega
    exact h
  | false =>
    exact ⟨k, Nat.le_refl k, Nat.lt_succ_self k, h, fun j hk hj => absurd hj (Nat.not_lt.mpr hk)⟩

theorem cons (h : if b then Silent goal ts k else Erases goal ts k)
    (h' : SilentIf goal ts (k + 1) n b') : SilentIf goal ts k (n + 1) (b && b') := by
  rw [Nat.add_comm]
  exact (one h).append h'

end SilentIf

/-! ## Passes -/

/-- The code of a text. -/
def onePass (goal : Goal) (text : String) : String :=
  String.ofList (program goal (Scan.ofText text).tokens text.toList)

variable {module : ModuleKind} {target : ScriptTarget}

/-- **A pass leaves a text alone or shortens it.** -/
theorem pass_eq_or_lt (hmodule : module.isEsModule = true) (text : String) :
    onePass (Goal.of module target) text = text ∨
      (onePass (Goal.of module target) text).toList.length < text.toList.length := by
  have hgoal : (Goal.of module target).commonJs = false := by simp [Goal.of, hmodule]
  rw [onePass, String.toList_ofList]
  refine ((reduced_program hgoal).eq_or_length_lt (length_declarator_lt module target)).imp_left ?_
  intro h
  rw [h, String.ofList_toList]

/-- A pass leaves a text alone just if nothing is proposed for it. -/
theorem onePass_eq_iff (hmodule : module.isEsModule = true) {text : String} {b : Bool}
    (h : SilentIf (Goal.of module target) (Scan.ofText text).tokens 0
      (last (Scan.ofText text).tokens) b) :
    onePass (Goal.of module target) text = text ↔ b = true := by
  have hgoal : (Goal.of module target).commonJs = false := by simp [Goal.of, hmodule]
  have hcode : onePass (Goal.of module target) text = text ↔
      program (Goal.of module target) (Scan.ofText text).tokens text.toList = text.toList := by
    rw [onePass, ← String.toList_inj, String.toList_ofList]
  rw [hcode]
  cases b with
  | true =>
    refine iff_of_true (program_of_silent hgoal (fun i hi => ?_) _) rfl
    exact h i (Nat.zero_le i) ((Nat.zero_add _).symm ▸ hi)
  | false =>
    obtain ⟨i, _, hi, herases, hbefore⟩ := h
    rw [Nat.zero_add] at hi
    refine iff_of_false (fun heq => ?_) Bool.false_ne_true
    exact edits_walk_ne_nil hgoal hi (fun j => hbefore j (Nat.zero_le j)) herases
      ((program_eq_iff hgoal (length_declarator_lt module target)).mp heq)

/-- **Passes settle.** -/
theorem exists_settled (hmodule : module.isEsModule = true) (text : String) :
    ∃ n ≤ text.toList.length, onePass (Goal.of module target)
      ((onePass (Goal.of module target))^[n] text) = (onePass (Goal.of module target))^[n] text := by
  generalize hlength : text.toList.length = m
  induction m using Nat.strong_induction_on generalizing text with
  | _ m ih =>
    rcases @pass_eq_or_lt module target hmodule text with h | h
    · exact ⟨0, Nat.zero_le m, h⟩
    · obtain ⟨n, hn, hsettled⟩ := ih _ (hlength ▸ h) _ rfl
      exact ⟨n + 1, by omega, hsettled⟩

end TypeScriptEngine.Emit
