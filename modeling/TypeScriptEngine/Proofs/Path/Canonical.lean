import TypeScriptEngine.Proofs.Path.Absolute

/-! # Normal paths and joins

The segments of a joined path are those of the first and, behind the head, those of the second
(`segments_join`).  To walk along it is to walk along the one and then along the other
(`foldl_step_join`), and the normal form of a path leads where the path leads
(`foldl_step_normalize`).  So it does not matter whether a path is made normal before something is
joined to it or only afterwards (`normalize_join`).

What a normal path looks like is read off its segments, which are settled or a single dot: a root is
among them just if the path had one (`isAbsolute_normalize`), and parents stand at the head of a path
without a root (`IsNormal.parents`).
-/

namespace TypeScriptEngine.Path

open Segment

/-! ## Segments of a spelling -/

/-- The segments of a path begin at the root just if the path does. -/
theorem root_mem_segments_iff {p : Path} : .root ∈ p.segments ↔ p.isAbsolute = true := by
  constructor
  · intro h
    rw [segments, segmentsOf_eq] at h
    rcases List.mem_append.mp h with h | h
    · rw [isAbsolute]
      unfold headOf at h
      split at h
      · rename_i hcs
        rw [hcs]
        rfl
      · simp at h
      · simp at h
      · contradiction
    · exact (plain_of_mem_partsOf h).elim
  · intro h
    obtain ⟨cs, -, hsegments⟩ := exists_partsOf h
    rw [hsegments]
    exact List.mem_cons_self ..

/-! ## Joined paths -/

theorem partsOf_append_slash (cs ds : List Char) :
    partsOf (cs ++ '/' :: ds) = partsOf cs ++ partsOf ds := by
  rw [partsOf, Text.splitOn_append_cons, List.filterMap_append]
  rfl

/-- What stands behind a slash does not change the head of a text. -/
theorem headOf_append_slash {cs : List Char} (h : cs ≠ []) (ds : List Char) :
    headOf (cs ++ '/' :: ds) = headOf cs := by
  cases cs with
  | nil => contradiction
  | cons c cs =>
    by_cases hslash : c = '/'
    · rw [hslash]
      rfl
    · by_cases hdot : c = '.'
      · cases cs with
        | nil =>
          rw [hdot]
          rfl
        | cons d cs =>
          by_cases hd : d = '/'
          · rw [hdot, hd]
            rfl
          · simp [headOf, hdot, hd]
      · simp [headOf, hslash, hdot]

theorem segmentsOf_append_slash {cs : List Char} (h : cs ≠ []) (ds : List Char) :
    segmentsOf (cs ++ '/' :: ds) = segmentsOf cs ++ partsOf ds := by
  rw [segmentsOf_eq, segmentsOf_eq, headOf_append_slash h, partsOf_append_slash,
    List.append_assoc]

/-- **The segments of a joined path** are those of the first, and those behind the head of the
second. -/
theorem segments_join {p q : Path} (hq : q.isAbsolute = false) (hp : p.text.toList ≠ []) :
    (p.join q).segments = p.segments ++ partsOf q.text.toList := by
  unfold join
  rw [if_neg (by simp [hq])]
  simp only
  split
  · rename_i hend
    obtain ⟨before, hbefore⟩ := List.getLast?_eq_some_iff.mp (hend.resolve_left hp)
    rw [segments, segments, String.toList_append, hbefore, List.append_assoc, List.singleton_append]
    by_cases hnil : before = []
    · rw [hnil, List.nil_append, List.nil_append, segmentsOf_slash, segmentsOf_slash]
      rfl
    · have hnone : partsOf [] = [] := rfl
      rw [segmentsOf_append_slash hnil, segmentsOf_append_slash hnil, hnone, List.append_nil]
  · have hslash : "/".toList = ['/'] := rfl
    rw [segments, segments, String.toList_append, String.toList_append, List.append_assoc, hslash,
      List.singleton_append, segmentsOf_append_slash hp]

/-- A dot at the head of a path that is not absolute is not walked. -/
theorem foldl_step_partsOf {q : Path} (hq : q.isAbsolute = false) (walked : List Segment) :
    q.segments.foldl step walked = (partsOf q.text.toList).foldl step walked := by
  rw [segments, segmentsOf_eq]
  rcases headOf_cases q.text.toList with hhead | hhead | hhead
  · have hroot : .root ∈ q.segments := by
      rw [segments, segmentsOf_eq, hhead]
      exact List.mem_cons_self ..
    exact absurd (root_mem_segments_iff.mp hroot) (by simp [hq])
  · rw [hhead]
    rfl
  · rw [hhead]
    rfl

/-- **To walk along a joined path is to walk along both.** -/
theorem foldl_step_join (p q : Path) :
    (p.join q).segments.foldl step [] = q.segments.foldl step (p.segments.foldl step []) := by
  cases hq : q.isAbsolute with
  | true =>
    -- at the root, all that was walked before is left
    obtain ⟨cs, -, hsegments⟩ := exists_partsOf hq
    rw [join, if_pos hq, hsegments]
    rfl
  | false =>
    by_cases hp : p.text.toList = []
    · have hjoin : p.join q = ⟨p.text ++ q.text⟩ := by
        rw [join, if_neg (by simp [hq])]
        exact if_pos (Or.inl hp)
      have hnone : segmentsOf [] = [] := rfl
      rw [hjoin, segments, segments, segments, String.toList_append, hp, hnone]
      rfl
    · rw [segments_join hq hp, List.foldl_append, foldl_step_partsOf hq]

/-! ## Normal forms -/

/-- **The normal form of a path leads where the path leads.** -/
theorem foldl_step_normalize (p : Path) :
    p.normalize.segments.foldl step [] = p.segments.foldl step [] :=
  List.reverse_inj.mp (normalSegments_normalize p)

/-- Paths that lead to the same place have the same normal form. -/
theorem normalize_eq_of_foldl_step {p q : Path}
    (h : p.segments.foldl step [] = q.segments.foldl step []) : p.normalize = q.normalize := by
  unfold normalize normalSegments
  rw [h]

/-- **A path may be made normal before something is joined to it.** -/
theorem normalize_join (p q : Path) : (p.normalize.join q).normalize = (p.join q).normalize :=
  normalize_eq_of_foldl_step (by rw [foldl_step_join, foldl_step_join, foldl_step_normalize])

theorem root_not_mem_step {walked : List Segment} {s : Segment} (hs : s ≠ .root)
    (h : .root ∉ walked) : .root ∉ step walked s := by
  cases s with
  | root => contradiction
  | here => exact h
  | name text =>
    rw [step_name, List.mem_cons, not_or]
    exact ⟨by simp, h⟩
  | up =>
    unfold step
    split <;> simp_all

/-- No root comes up on a walk that passes none. -/
theorem root_not_mem_foldl_step {segments walked : List Segment} (hs : .root ∉ segments)
    (h : .root ∉ walked) : .root ∉ segments.foldl step walked := by
  induction segments generalizing walked with
  | nil => exact h
  | cons s segments ih =>
    obtain ⟨hne, hrest⟩ := not_or.mp (fun hm => hs (List.mem_cons.mpr hm))
    exact ih hrest (root_not_mem_step (Ne.symm hne) h)

/-- **The normal form of a path is absolute just if the path is.** -/
theorem isAbsolute_normalize (p : Path) : p.normalize.isAbsolute = p.isAbsolute := by
  cases hp : p.isAbsolute with
  | true =>
    obtain ⟨names, hnames, hnormal⟩ := exists_ofNames hp
    rw [hnormal, isAbsolute_ofNames hnames]
  | false =>
    have hroot : .root ∉ p.segments := mt root_mem_segments_iff.mp (by simp [hp])
    have hwalk : .root ∉ normalSegments p.segments := by
      rw [normalSegments, List.mem_reverse]
      exact root_not_mem_foldl_step hroot List.not_mem_nil
    refine Bool.eq_false_iff.mpr (mt root_mem_segments_iff.mpr ?_)
    rw [segments_normalize]
    split
    · decide
    · exact hwalk

/-- Parents stand at the head of settled segments, and no root with them. -/
theorem parents_of_settled {segments before after : List Segment} (h : Settled segments)
    (he : segments = before ++ .up :: after) :
    .root ∉ segments ∧ ∀ s ∈ before, s = .up := by
  obtain ⟨head, names, hhead, -, hsegments⟩ := h
  have hnames : ∀ s ∈ names.map Segment.name, s ≠ .up ∧ s ≠ .root := by
    intro s hs
    obtain ⟨name, -, rfl⟩ := List.mem_map.mp hs
    simp
  have hup : Segment.up ∈ head ++ names.map Segment.name := by
    rw [← hsegments, he]
    simp
  rcases hhead with rfl | ⟨k, rfl⟩
  · rcases List.mem_append.mp hup with hup | hup
    · simp at hup
    · exact absurd rfl (hnames _ hup).1
  · constructor
    · rw [hsegments, List.mem_append, not_or]
      exact ⟨fun hm => by simpa using List.eq_of_mem_replicate hm,
        fun hm => (hnames _ hm).2 rfl⟩
    · rw [he] at hsegments
      rcases List.append_eq_append_iff.mp hsegments with ⟨rest, hk, -⟩ | ⟨rest, -, hrest⟩
      · intro s hs
        exact List.eq_of_mem_replicate (hk ▸ List.mem_append_left rest hs)
      · -- behind the parents there are only names
        have hmem : Segment.up ∈ names.map Segment.name := hrest ▸ by simp
        exact absurd rfl (hnames _ hmem).1

theorem here_not_mem_of_settled {segments : List Segment} (h : Settled segments) :
    .here ∉ segments := by
  obtain ⟨head, names, hhead, -, rfl⟩ := h
  intro hm
  rcases List.mem_append.mp hm with hm | hm
  · rcases hhead with rfl | ⟨k, rfl⟩
    · simp at hm
    · simpa using List.eq_of_mem_replicate hm
  · obtain ⟨name, -, he⟩ := List.mem_map.mp hm
    contradiction

/-- A normal path is spelled by its segments. -/
theorem IsNormal.ofSegments_segments {p : Path} (h : p.IsNormal) : ofSegments p.segments = p := by
  rcases h.cases with rfl | ⟨segments, hsettled, hne, rfl⟩
  · rfl
  · rw [segments_ofSegments hsettled hne]

theorem IsNormal.eq_dot {p : Path} (h : p.IsNormal) (hhere : .here ∈ p.segments) : p = ⟨"."⟩ := by
  rcases h.cases with rfl | ⟨segments, hsettled, hne, rfl⟩
  · rfl
  · rw [segments_ofSegments hsettled hne] at hhere
    exact absurd hhere (here_not_mem_of_settled hsettled)

/-- Parents in a normal path stand at its head, and the path is relative. -/
theorem IsNormal.parents {p : Path} (h : p.IsNormal) {before after : List Segment}
    (he : p.segments = before ++ .up :: after) :
    p.isAbsolute = false ∧ ∀ s ∈ before, s = .up := by
  rcases h.cases with rfl | ⟨segments, hsettled, hne, rfl⟩
  · have hup : Segment.up ∈ (⟨"."⟩ : Path).segments := by
      rw [he]
      simp
    exact absurd hup (by decide)
  · have hsegments := segments_ofSegments hsettled hne
    obtain ⟨hroot, hbefore⟩ := parents_of_settled hsettled (hsegments.symm.trans he)
    rw [← hsegments] at hroot
    exact ⟨Bool.eq_false_iff.mpr (mt root_mem_segments_iff.mpr hroot), hbefore⟩

/-- **Normal paths are canonical,** whatever is joined to them.  The normal form of a path is spelled
by its segments.  A dot is among them only if it is all there is, and segments `..` stand only at the
head of a relative path.  It is absolute just if the path is, and normal itself; and a path may be
made normal before another one is joined to it. -/
theorem normalize_canonical (p q : Path) :
    ofSegments p.normalize.segments = p.normalize ∧
    (.here ∈ p.normalize.segments → p.normalize = ⟨"."⟩) ∧
    (∀ before after, p.normalize.segments = before ++ .up :: after →
      p.isAbsolute = false ∧ ∀ s ∈ before, s = .up) ∧
    p.normalize.isAbsolute = p.isAbsolute ∧
    p.normalize.normalize = p.normalize ∧
    (p.join q).normalize = (p.normalize.join q).normalize := by
  have hnormal := isNormal_normalize p
  refine ⟨hnormal.ofSegments_segments, hnormal.eq_dot, fun before after he => ?_,
    isAbsolute_normalize p, normalize_normalize p, (normalize_join p q).symm⟩
  rw [← isAbsolute_normalize]
  exact hnormal.parents he

end TypeScriptEngine.Path
