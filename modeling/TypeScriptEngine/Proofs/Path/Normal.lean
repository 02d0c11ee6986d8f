import TypeScriptEngine.Path.Normal
import TypeScriptEngine.Proofs.Text.Split

/-! # Normal paths are canonical

The segments of a normal path are a root followed by names, or some segments `..` followed by names
(`Settled`).  Such segments are read back from their spelling (`segments_ofSegments`) and are left
alone by a second walk (`normalSegments_of_settled`).  So `normalize` is idempotent, and two normal
paths that are the same are spelled the same (`eq_of_beq`).
-/

namespace TypeScriptEngine

/-! ## Segments -/

namespace Segment

/-- A text that stands between slashes and means itself. -/
def IsName (text : String) : Prop :=
  text.toList ≠ [] ∧ text.toList ≠ ['.'] ∧ text.toList ≠ ['.', '.'] ∧ '/' ∉ text.toList

/-- A segment that may stand behind others. -/
def Plain : Segment → Prop
  | up => True
  | name text => IsName text
  | root | here => False

theorem ofPart?_text {s : Segment} (h : s.Plain) : ofPart? s.text.toList = some s := by
  cases s with
  | root | here => exact h.elim
  | up => rfl
  | name text =>
    obtain ⟨h₀, h₁, h₂, _⟩ := h
    simp [ofPart?, Segment.text, h₀, h₁, h₂]

theorem slash_not_mem_text {s : Segment} (h : s.Plain) : '/' ∉ s.text.toList := by
  cases s with
  | root | here => exact h.elim
  | up => decide
  | name text => exact h.2.2.2

theorem text_ne_nil {s : Segment} (h : s.Plain) : s.text.toList ≠ [] := by
  cases s with
  | root | here => exact h.elim
  | up => decide
  | name text => exact h.1

theorem text_ne_dot {s : Segment} (h : s.Plain) : s.text.toList ≠ ['.'] := by
  cases s with
  | root | here => exact h.elim
  | up => decide
  | name text => exact h.2.1

theorem plain_of_ofPart? {part : List Char} {s : Segment} (h : ofPart? part = some s)
    (hp : '/' ∉ part) : s.Plain := by
  unfold ofPart? at h
  split at h
  · contradiction
  · rename_i hne
    obtain ⟨h₀, h₁⟩ := not_or.mp hne
    split at h
    · exact Option.some.inj h ▸ trivial
    · rename_i h₂
      have hs := Option.some.inj h
      subst hs
      simp [Plain, IsName, h₀, h₁, h₂, hp]

end Segment

namespace Path

open Segment

/-! ## Segments of a spelling -/

/-- The segment that stands for the head of a spelling. -/
def headOf : List Char → List Segment
  | '/' :: _ => [.root]
  | ['.'] => [.here]
  | '.' :: '/' :: _ => [.here]
  | _ => []

/-- The segments behind the head of a spelling. -/
def partsOf (cs : List Char) : List Segment := (Text.splitOn '/' cs).filterMap ofPart?

theorem segmentsOf_eq (cs : List Char) : segmentsOf cs = headOf cs ++ partsOf cs := by
  unfold segmentsOf
  split
  · rfl
  · rfl
  · rfl
  · rename_i hroot hdot hhere
    rw [headOf]
    · rfl
    · exact hroot
    · exact hdot
    · exact hhere

theorem partsOf_slash (cs : List Char) : partsOf ('/' :: cs) = partsOf cs := by
  rw [partsOf, Text.splitOn, if_pos rfl]
  rfl

theorem segmentsOf_slash (cs : List Char) : segmentsOf ('/' :: cs) = .root :: partsOf cs := by
  rw [segmentsOf_eq, partsOf_slash]
  rfl

theorem plain_of_mem_partsOf {cs : List Char} {s : Segment} (h : s ∈ partsOf cs) : s.Plain := by
  obtain ⟨part, hpart, hof⟩ := List.mem_filterMap.mp h
  exact plain_of_ofPart? hof (Text.not_mem_of_mem_splitOn hpart)

theorem headOf_cases (cs : List Char) : headOf cs = [.root] ∨ headOf cs = [.here] ∨ headOf cs = [] := by
  unfold headOf
  split
  · exact Or.inl rfl
  · exact Or.inr (Or.inl rfl)
  · exact Or.inr (Or.inl rfl)
  · exact Or.inr (Or.inr rfl)

/-- A segment is plain, or stands at the head of a path. -/
theorem plain_of_mem_segments {p : Path} {s : Segment} (h : s ∈ p.segments) :
    s = .root ∨ s = .here ∨ s.Plain := by
  rw [segments, segmentsOf_eq] at h
  rcases List.mem_append.mp h with h | h
  · rcases headOf_cases p.text.toList with hhead | hhead | hhead <;> rw [hhead] at h
    · exact Or.inl (List.mem_singleton.mp h)
    · exact Or.inr (Or.inl (List.mem_singleton.mp h))
    · contradiction
  · exact Or.inr (Or.inr (plain_of_mem_partsOf h))

/-! ## Settled segments -/

/-- What may stand before the names of a settled path: the root, or some parents. -/
def IsHead (head : List Segment) : Prop := head = [.root] ∨ ∃ k, head = List.replicate k .up

/-- A root or some parents, and names below it. -/
def Settled (segments : List Segment) : Prop :=
  ∃ (head : List Segment) (names : List String),
    IsHead head ∧ (∀ name ∈ names, IsName name) ∧ segments = head ++ names.map .name

theorem step_name (walked : List Segment) (text : String) :
    step walked (.name text) = .name text :: walked := by
  unfold step
  split <;> simp_all

theorem step_up_of_isHead {head : List Segment} (h : IsHead head) :
    IsHead (step head.reverse .up).reverse := by
  rcases h with rfl | ⟨k, rfl⟩
  · exact Or.inl rfl
  · refine Or.inr ⟨k + 1, ?_⟩
    rw [List.reverse_replicate]
    cases k with
    | zero => rfl
    | succ k =>
      show (Segment.up :: List.replicate (k + 1) .up).reverse = _
      rw [← List.replicate_succ, List.reverse_replicate]

/-- What has been walked, the last segment first, is settled. -/
theorem settled_step {walked : List Segment} {s : Segment} (hs : s = .root ∨ s = .here ∨ s.Plain)
    (h : Settled walked.reverse) : Settled (step walked s).reverse := by
  obtain ⟨head, names, hhead, hnames, hw⟩ := h
  cases s with
  | root => exact ⟨[.root], [], Or.inl rfl, by simp, rfl⟩
  | here => exact ⟨head, names, hhead, hnames, hw⟩
  | name text =>
    have htext : IsName text := by
      rcases hs with hs | hs | hs
      · contradiction
      · contradiction
      · exact hs
    refine ⟨head, names ++ [text], hhead, ?_, ?_⟩
    · intro name hname
      rcases List.mem_append.mp hname with hname | hname
      · exact hnames name hname
      · exact List.mem_singleton.mp hname ▸ htext
    · rw [step_name, List.reverse_cons, hw]
      simp
  | up =>
    have hwalked : walked = (head ++ names.map Segment.name).reverse := by
      rw [← hw, List.reverse_reverse]
    rcases List.eq_nil_or_concat names with rfl | ⟨init, last, rfl⟩
    · rw [List.map_nil, List.append_nil] at hwalked
      rw [hwalked]
      exact ⟨_, [], step_up_of_isHead hhead, by simp, by simp⟩
    · -- the last name is taken back
      have : step walked .up = (head ++ init.map Segment.name).reverse := by
        rw [hwalked]
        simp [step]
      rw [this, List.reverse_reverse]
      refine ⟨head, init, hhead, fun name hname => hnames name ?_, rfl⟩
      simp [hname]

theorem settled_foldl_step {segments : List Segment}
    (hs : ∀ s ∈ segments, s = .root ∨ s = .here ∨ s.Plain) {walked : List Segment}
    (h : Settled walked.reverse) : Settled (segments.foldl step walked).reverse := by
  induction segments generalizing walked with
  | nil => exact h
  | cons s segments ih =>
    exact ih (fun t ht => hs t (List.mem_cons_of_mem _ ht))
      (settled_step (hs s (List.mem_cons_self ..)) h)

theorem settled_normalSegments (p : Path) : Settled (normalSegments p.segments) :=
  settled_foldl_step (fun _ => plain_of_mem_segments) ⟨[], [], Or.inr ⟨0, rfl⟩, by simp, rfl⟩

theorem foldl_step_names (names : List String) (walked : List Segment) :
    (names.map Segment.name).foldl step walked = (names.map Segment.name).reverse ++ walked := by
  induction names generalizing walked with
  | nil => rfl
  | cons name names ih =>
    rw [List.map_cons, List.foldl_cons, step_name, ih]
    simp

theorem foldl_step_replicate_up (k j : Nat) :
    (List.replicate k Segment.up).foldl step (List.replicate j .up) =
      List.replicate (j + k) .up := by
  induction k generalizing j with
  | zero => rfl
  | succ k ih =>
    have hstep : step (List.replicate j .up) .up = List.replicate (j + 1) .up := by
      cases j <;> rfl
    rw [List.replicate_succ, List.foldl_cons, hstep, ih]
    congr 1
    omega

/-- **A second walk changes nothing.** -/
theorem normalSegments_of_settled {segments : List Segment} (h : Settled segments) :
    normalSegments segments = segments := by
  obtain ⟨head, names, hhead, _, rfl⟩ := h
  have hwalk : head.foldl step [] = head.reverse := by
    rcases hhead with rfl | ⟨k, rfl⟩
    · rfl
    · have := foldl_step_replicate_up k 0
      rw [Nat.zero_add] at this
      rw [List.reverse_replicate]
      exact this
  rw [normalSegments, List.foldl_append, hwalk, foldl_step_names]
  simp

/-! ## Spelling -/

/-- The spelling of plain segments behind a text. -/
def spellBehind (segments : List Segment) : List Char :=
  segments.flatMap fun s => '/' :: s.text.toList

theorem isAbsolute_text {s : Segment} (hs : s.Plain) : isAbsolute ⟨s.text⟩ = false := by
  have hslash := slash_not_mem_text hs
  unfold isAbsolute
  cases hcs : s.text.toList with
  | nil => rfl
  | cons c cs =>
    have hc : c ≠ '/' := fun he => hslash (hcs ▸ he ▸ List.mem_cons_self ..)
    simp [hc]

/-- A plain segment is joined with a slash, unless there is one or nothing precedes. -/
theorem join_text {s : Segment} (hs : s.Plain) (p : Path) :
    p.join ⟨s.text⟩ =
      if p.text.toList = [] ∨ p.text.toList.getLast? = some '/' then ⟨p.text ++ s.text⟩
      else ⟨p.text ++ "/" ++ s.text⟩ := by
  unfold join
  rw [if_neg (by simp [isAbsolute_text hs])]

theorem toList_join {p : Path} {s : Segment} (hs : s.Plain) (hp : p.text.toList ≠ [])
    (hlast : p.text.toList.getLast? ≠ some '/') :
    (p.join ⟨s.text⟩).text.toList = p.text.toList ++ '/' :: s.text.toList := by
  rw [join_text hs, if_neg (not_or.mpr ⟨hp, hlast⟩)]
  simp

theorem getLast?_append_text {s : Segment} (hs : s.Plain) (cs : List Char) :
    (cs ++ s.text.toList).getLast? ≠ some '/' := by
  intro h
  rw [List.getLast?_append_of_ne_nil _ (text_ne_nil hs)] at h
  exact slash_not_mem_text hs (List.mem_of_getLast? h)

theorem toList_foldl_join {p : Path} {segments : List Segment} (hs : ∀ s ∈ segments, s.Plain)
    (hp : p.text.toList ≠ []) (hlast : p.text.toList.getLast? ≠ some '/') :
    (segments.foldl (fun p s => p.join ⟨s.text⟩) p).text.toList =
      p.text.toList ++ spellBehind segments := by
  induction segments generalizing p with
  | nil => simp [spellBehind]
  | cons s segments ih =>
    have hplain := hs s (List.mem_cons_self ..)
    have hjoin := toList_join hplain hp hlast
    rw [List.foldl_cons, ih (fun t ht => hs t (List.mem_cons_of_mem _ ht)), hjoin]
    · simp [spellBehind]
    · rw [hjoin]
      simp
    · rw [hjoin, show '/' :: s.text.toList = ['/'] ++ s.text.toList from rfl, ← List.append_assoc]
      exact getLast?_append_text hplain _

/-- The text of segments that begin with a plain one. -/
theorem toList_ofSegments_plain {s : Segment} {segments : List Segment} (hs : s.Plain)
    (hss : ∀ t ∈ segments, t.Plain) :
    (ofSegments (s :: segments)).text.toList = s.text.toList ++ spellBehind segments := by
  have hfirst : (⟨""⟩ : Path).join ⟨s.text⟩ = ⟨s.text⟩ := by
    have hempty : (⟨""⟩ : Path).text.toList = [] := by simp
    rw [join_text hs, if_pos (Or.inl hempty)]
    simp
  rw [ofSegments, List.foldl_cons, hfirst]
  exact toList_foldl_join hss (text_ne_nil hs) (by simpa using getLast?_append_text hs [])

/-- The text of segments that begin with the root. -/
theorem toList_ofSegments_root {s : Segment} {segments : List Segment} (hs : s.Plain)
    (hss : ∀ t ∈ segments, t.Plain) :
    (ofSegments (.root :: s :: segments)).text.toList =
      '/' :: (s.text.toList ++ spellBehind segments) := by
  have hroot : (⟨""⟩ : Path).join ⟨Segment.root.text⟩ = ⟨"/"⟩ := rfl
  have hfirst : ((⟨"/"⟩ : Path).join ⟨s.text⟩).text.toList = '/' :: s.text.toList := by
    have hslash : (⟨"/"⟩ : Path).text.toList.getLast? = some '/' := by simp
    rw [join_text hs, if_pos (Or.inr hslash)]
    simp
  rw [ofSegments, List.foldl_cons, hroot, List.foldl_cons, toList_foldl_join hss, hfirst]
  · rfl
  · rw [hfirst]
    simp
  · rw [hfirst]
    exact getLast?_append_text hs ['/']

theorem filterMap_ofPart?_texts {segments : List Segment} (hs : ∀ s ∈ segments, s.Plain) :
    (segments.map fun s => s.text.toList).filterMap Segment.ofPart? = segments := by
  induction segments with
  | nil => rfl
  | cons s segments ih =>
    rw [List.map_cons, List.filterMap_cons_some (ofPart?_text (hs s (List.mem_cons_self ..))),
      ih fun t ht => hs t (List.mem_cons_of_mem _ ht)]

/-- The parts of a spelling are the texts of its segments. -/
theorem splitOn_spelling {s : Segment} {segments : List Segment} (hs : s.Plain)
    (hss : ∀ t ∈ segments, t.Plain) :
    Text.splitOn '/' (s.text.toList ++ spellBehind segments) =
      (s :: segments).map fun s => s.text.toList := by
  have hflat : spellBehind segments =
      (segments.map fun s => s.text.toList).flatMap fun part => '/' :: part := by
    rw [spellBehind, List.flatMap_map]
  rw [hflat, Text.splitOn_append_flatMap (slash_not_mem_text hs)]
  · rfl
  · intro part hpart
    obtain ⟨t, ht, rfl⟩ := List.mem_map.mp hpart
    exact slash_not_mem_text (hss t ht)

theorem segmentsOf_plain {s : Segment} {segments : List Segment} (hs : s.Plain)
    (hss : ∀ t ∈ segments, t.Plain) :
    segmentsOf (s.text.toList ++ spellBehind segments) = s :: segments := by
  have hall : ∀ t ∈ s :: segments, t.Plain := by
    intro t ht
    rcases List.mem_cons.mp ht with rfl | ht
    · exact hs
    · exact hss t ht
  have hnames := filterMap_ofPart?_texts hall
  rw [← splitOn_spelling hs hss] at hnames
  unfold segmentsOf
  -- the text begins neither with a slash nor with a dot that is a part
  have hne := text_ne_nil hs
  have hdot := text_ne_dot hs
  have hslash := slash_not_mem_text hs
  cases hcs : s.text.toList with
  | nil => exact absurd hcs hne
  | cons c cs =>
    rw [hcs] at hnames hdot hslash
    split
    · rename_i heq
      rw [List.cons_append] at heq
      exact absurd (List.mem_cons.mpr (Or.inl (List.cons.inj heq).1.symm)) hslash
    · rename_i heq
      rw [List.cons_append] at heq
      obtain ⟨rfl, htail⟩ := List.cons.inj heq
      rw [(List.append_eq_nil_iff.mp htail).1] at hdot
      exact absurd rfl hdot
    · rename_i heq
      rw [List.cons_append] at heq
      obtain ⟨rfl, htail⟩ := List.cons.inj heq
      cases cs with
      | nil => exact absurd rfl hdot
      | cons d cs =>
        rw [List.cons_append] at htail
        have hd := (List.cons.inj htail).1
        subst hd
        exact absurd (List.mem_cons_of_mem _ (List.mem_cons_self ..)) hslash
    · exact hnames

theorem plain_names {names : List String} (h : ∀ name ∈ names, IsName name) :
    ∀ s ∈ names.map Segment.name, s.Plain := by
  intro s hs
  obtain ⟨name, hname, rfl⟩ := List.mem_map.mp hs
  exact h name hname

/-- **Settled segments are read back from their spelling.** -/
theorem segments_ofSegments {segments : List Segment} (h : Settled segments)
    (hne : segments ≠ []) : (ofSegments segments).segments = segments := by
  obtain ⟨head, names, hhead, hnames, rfl⟩ := h
  have hplain := plain_names hnames
  rcases hhead with rfl | ⟨k, rfl⟩
  · cases names with
    | nil => rfl
    | cons name names =>
      have hs := hplain (.name name) (List.mem_cons_self ..)
      have hss := fun t ht => hplain t (List.mem_cons_of_mem _ ht)
      show segmentsOf (ofSegments (.root :: .name name :: names.map .name)).text.toList = _
      rw [toList_ofSegments_root hs hss, segmentsOf_slash, partsOf, splitOn_spelling hs hss]
      exact congrArg (Segment.root :: ·) (filterMap_ofPart?_texts hplain)
  · have hall : ∀ s ∈ List.replicate k Segment.up ++ names.map Segment.name, s.Plain := by
      intro s hs
      rcases List.mem_append.mp hs with hs | hs
      · exact (List.mem_replicate.mp hs).2 ▸ trivial
      · exact hplain s hs
    generalize List.replicate k Segment.up ++ names.map Segment.name = segments at hne hall
    cases segments with
    | nil => exact absurd rfl hne
    | cons s segments =>
      have hs := hall s (List.mem_cons_self ..)
      have hss := fun t ht => hall t (List.mem_cons_of_mem _ ht)
      show segmentsOf (ofSegments (s :: segments)).text.toList = _
      rw [toList_ofSegments_plain hs hss, segmentsOf_plain hs hss]

/-! ## Normal paths -/

/-- The path is spelled in the normal form. -/
def IsNormal (p : Path) : Prop := p.normalize = p

theorem normalize_congr {p q : Path} (h : (p == q) = true) : p.normalize = q.normalize := by
  unfold normalize
  rw [beq_iff.mp h]

/-- The segments of a normal path: those that remain of a walk, or a dot. -/
theorem segments_normalize (p : Path) :
    p.normalize.segments =
      if normalSegments p.segments = [] then [.here] else normalSegments p.segments := by
  unfold normalize
  split
  · rename_i h
    rw [if_pos h]
    rfl
  · rename_i h
    rw [if_neg h, segments_ofSegments (settled_normalSegments p) h]

theorem normalSegments_normalize (p : Path) :
    normalSegments p.normalize.segments = normalSegments p.segments := by
  rw [segments_normalize]
  split
  · rename_i h
    rw [h]
    rfl
  · exact normalSegments_of_settled (settled_normalSegments p)

/-- **The normal form of a path is normal.** -/
theorem isNormal_normalize (p : Path) : p.normalize.IsNormal := by
  show p.normalize.normalize = p.normalize
  rw [normalize, normalSegments_normalize]
  rfl

@[simp] theorem normalize_normalize (p : Path) : p.normalize.normalize = p.normalize :=
  isNormal_normalize p

/-- **Normal paths that are the same are spelled the same.** -/
theorem IsNormal.eq_of_beq {p q : Path} (hp : p.IsNormal) (hq : q.IsNormal)
    (h : (p == q) = true) : p = q := by
  rw [← hp, ← hq, normalize_congr h]

end Path

end TypeScriptEngine
