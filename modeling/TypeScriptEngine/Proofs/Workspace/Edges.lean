import Mathlib.Data.List.Nodup
import TypeScriptEngine.Engine.Workspace
import TypeScriptEngine.Proofs.Graph.Views
import TypeScriptEngine.Proofs.Path.Normal

/-! # The edges that a text stands for

`SourceText.edges` says what the edges of a file ought to be: one for each reference of its text
that the resolver takes to a source, in the order of the references.  Resolving the requests of a
level in order finds them (`edgesOf_resolved`), and connecting the level puts them into the graph
(`dependencies_connect`).
-/

namespace TypeScriptEngine

open TypeScriptEngine.Graph TypeScriptEngine.Path DependencyGraph

/-- What a specifier means, seen from a directory. -/
abbrev Resolver := Path → String → Except ResolveError Path

/-! ## References and edges of a text -/

namespace SourceText

/-- The references of the text, in order. -/
def references (s : SourceText) : List Reference := (FileReferences.ofText s.text).references

/-- The directory of the file. -/
def directory (s : SourceText) : Path := (s.path.parent?).getD ⟨""⟩

/-- What the resolver answers to a reference. -/
def answer (s : SourceText) (resolve : Resolver) (r : Reference) : Except ResolveError Path :=
  resolve s.directory (ResolveRequest.askedSpecifier s.directory r)

/-- Every reference leads somewhere. -/
def Resolves (s : SourceText) (resolve : Resolver) : Prop :=
  ∀ r ∈ s.references, ∃ target, s.answer resolve r = .ok target

/-- The edge of a reference: it goes to the normal path of what the resolver finds, if that is a
source. -/
def edge? (s : SourceText) (resolve : Resolver) (r : Reference) : Option Dependency :=
  match s.answer resolve r with
  | .error _ => none
  | .ok target =>
    if isTracked target.normalize then
      some { specifier := r.specifier, target := target.normalize, span := r.span, kind := r.kind }
    else none

/-- The edges that the references of the text stand for, in order. -/
def edges (s : SourceText) (resolve : Resolver) : List Dependency :=
  s.references.filterMap (s.edge? resolve)

variable {s : SourceText} {resolve : Resolver}

theorem exists_reference_of_mem_edges {d : Dependency} (h : d ∈ s.edges resolve) :
    ∃ r ∈ s.references, ∃ target, s.answer resolve r = .ok target ∧
      isTracked target.normalize = true ∧ d.target = target.normalize := by
  obtain ⟨r, hr, hd⟩ := List.mem_filterMap.mp h
  refine ⟨r, hr, ?_⟩
  unfold edge? at hd
  split at hd
  · contradiction
  · rename_i target ht
    split at hd
    · rename_i htracked
      exact ⟨target, ht, htracked, (congrArg Dependency.target (Option.some.inj hd)).symm⟩
    · contradiction

theorem exists_mem_edges {r : Reference} (hr : r ∈ s.references) {target : Path}
    (ht : s.answer resolve r = .ok target) (htracked : isTracked target.normalize = true) :
    ∃ d ∈ s.edges resolve, d.target = target.normalize := by
  refine ⟨{ specifier := r.specifier, target := target.normalize, span := r.span, kind := r.kind },
    List.mem_filterMap.mpr ⟨r, hr, ?_⟩, rfl⟩
  unfold edge?
  rw [ht]
  exact if_pos htracked

theorem isNormal_target_of_mem_edges {d : Dependency} (h : d ∈ s.edges resolve) :
    d.target.IsNormal := by
  obtain ⟨_, _, target, _, _, ht⟩ := exists_reference_of_mem_edges h
  exact ht ▸ isNormal_normalize target

theorem isTracked_of_mem_edges {d : Dependency} (h : d ∈ s.edges resolve) :
    isTracked d.target = true := by
  obtain ⟨_, _, _, _, htracked, ht⟩ := exists_reference_of_mem_edges h
  exact ht ▸ htracked

theorem ofSource_eq (s : SourceText) :
    ResolveRequest.ofSource s = s.references.map fun r =>
      { source := s.path, context := s.directory, reference := r
        specifier := ResolveRequest.askedSpecifier s.directory r } := rfl

end SourceText

/-! ## What is asked -/

namespace Surroundings

variable {env : Surroundings}

/-- The record of a request to the resolver. -/
def askingOf (request : ResolveRequest) : Access := .resolve request.context request.specifier

/-- **Resolving is done for all requests, each once,** or fails at one of them. -/
theorem resolveAll_eq {requests : List ResolveRequest} {accesses : List Access}
    {result : Except EngineError (List (ResolveRequest × Path))}
    (h : env.resolveAll requests = (accesses, result)) :
    match result with
    | .ok resolved =>
      accesses = requests.map askingOf ∧ resolved.map Prod.fst = requests ∧
        ∀ entry ∈ resolved, ∃ target,
          env.resolve entry.1.context entry.1.specifier = .ok target ∧
            entry.2 = target.normalize
    | .error e =>
      ∃ request ∈ requests, ∃ cause,
        env.resolve request.context request.specifier = .error cause ∧
          e = .unresolved request.reference.specifier request.source cause := by
  induction requests generalizing accesses result with
  | nil =>
    obtain ⟨rfl, rfl⟩ := Prod.mk.inj h
    exact ⟨rfl, rfl, by simp⟩
  | cons request requests ih =>
    unfold resolveAll at h
    split at h
    · rename_i cause hcause
      obtain ⟨rfl, rfl⟩ := Prod.mk.inj h
      exact ⟨request, List.mem_cons_self .., cause, hcause, rfl⟩
    · rename_i target htarget
      cases hrest : env.resolveAll requests with
      | mk accesses' result' =>
      rw [hrest] at h
      have ih := ih hrest
      cases result' with
      | error e =>
        obtain ⟨rfl, rfl⟩ := Prod.mk.inj h
        obtain ⟨r, hr, hcause⟩ := ih
        exact ⟨r, List.mem_cons_of_mem _ hr, hcause⟩
      | ok resolved =>
        obtain ⟨rfl, rfl⟩ := Prod.mk.inj h
        obtain ⟨haccesses, hrequests, htargets⟩ := ih
        refine ⟨by rw [haccesses]; rfl, by rw [List.map_cons, hrequests], ?_⟩
        intro entry hentry
        rcases List.mem_cons.mp hentry with rfl | hentry
        · exact ⟨target, htarget, rfl⟩
        · exact htargets entry hentry

/-- **Reading is done for all paths, each once,** or fails at one of them. -/
theorem readAll_eq {paths : List Path} {accesses : List Access}
    {result : Except EngineError (List SourceText)}
    (h : env.readAll paths = (accesses, result)) :
    match result with
    | .ok sources =>
      accesses = paths.map .read ∧ sources.map SourceText.path = paths ∧
        ∀ s ∈ sources, env.disk.read s.path = .ok s.text
    | .error e =>
      ∃ path ∈ paths, ∃ cause, env.disk.read path = .error cause ∧ e = .unreadable path cause := by
  induction paths generalizing accesses result with
  | nil =>
    obtain ⟨rfl, rfl⟩ := Prod.mk.inj h
    exact ⟨rfl, rfl, by simp⟩
  | cons path paths ih =>
    unfold readAll at h
    split at h
    · rename_i cause hcause
      obtain ⟨rfl, rfl⟩ := Prod.mk.inj h
      exact ⟨path, List.mem_cons_self .., cause, hcause, rfl⟩
    · rename_i text htext
      cases hrest : env.readAll paths with
      | mk accesses' result' =>
      rw [hrest] at h
      have ih := ih hrest
      cases result' with
      | error e =>
        obtain ⟨rfl, rfl⟩ := Prod.mk.inj h
        obtain ⟨p, hp, hcause⟩ := ih
        exact ⟨p, List.mem_cons_of_mem _ hp, hcause⟩
      | ok sources =>
        obtain ⟨rfl, rfl⟩ := Prod.mk.inj h
        obtain ⟨haccesses, hpaths, htexts⟩ := ih
        refine ⟨by rw [haccesses]; rfl, by rw [List.map_cons, hpaths], ?_⟩
        intro s hs
        rcases List.mem_cons.mp hs with rfl | hs
        · exact htext
        · exact htexts s hs

end Surroundings

/-! ## The edges of a level -/

namespace Workspace

variable {env : Surroundings}

/-- The requests of a level, each with what the resolver takes it to. -/
structure ResolvedLevel (env : Surroundings) (level : List SourceText)
    (resolved : List (ResolveRequest × Path)) : Prop where
  requests : resolved.map Prod.fst = level.flatMap ResolveRequest.ofSource
  targets : ∀ entry ∈ resolved, ∃ target,
    env.resolve entry.1.context entry.1.specifier = .ok target ∧ entry.2 = target.normalize

variable {level : List SourceText} {resolved : List (ResolveRequest × Path)}

theorem ResolvedLevel.request_mem (h : ResolvedLevel env level resolved) {s : SourceText}
    (hs : s ∈ level) {r : Reference} (hr : r ∈ s.references) :
    (⟨s.path, s.directory, ResolveRequest.askedSpecifier s.directory r, r⟩ : ResolveRequest) ∈
      resolved.map Prod.fst := by
  rw [h.requests]
  refine List.mem_flatMap.mpr ⟨s, hs, ?_⟩
  rw [SourceText.ofSource_eq]
  exact List.mem_map_of_mem hr

theorem ResolvedLevel.resolves (h : ResolvedLevel env level resolved) :
    ∀ s ∈ level, s.Resolves env.resolve := by
  intro s hs r hr
  obtain ⟨entry, hentry, he⟩ := List.mem_map.mp (h.request_mem hs hr)
  obtain ⟨target, htarget, _⟩ := h.targets entry hentry
  rw [he] at htarget
  exact ⟨target, htarget⟩

/-- A tracked target of a request is the target of an edge. -/
theorem ResolvedLevel.exists_mem_edges (h : ResolvedLevel env level resolved)
    {entry : ResolveRequest × Path} (hentry : entry ∈ resolved) (ht : isTracked entry.2 = true) :
    ∃ s ∈ level, ∃ d ∈ s.edges env.resolve, d.target = entry.2 := by
  have hmem := List.mem_map_of_mem (f := Prod.fst) hentry
  rw [h.requests] at hmem
  obtain ⟨s, hs, hrequest⟩ := List.mem_flatMap.mp hmem
  rw [SourceText.ofSource_eq] at hrequest
  obtain ⟨r, hr, he⟩ := List.mem_map.mp hrequest
  obtain ⟨target, htarget, hnormal⟩ := h.targets entry hentry
  rw [← he] at htarget
  rw [hnormal] at ht ⊢
  exact ⟨s, hs, SourceText.exists_mem_edges hr htarget ht⟩

/-- The target of an edge is the target of a request. -/
theorem ResolvedLevel.exists_entry (h : ResolvedLevel env level resolved) {s : SourceText}
    (hs : s ∈ level) {d : Dependency} (hd : d ∈ s.edges env.resolve) :
    ∃ entry ∈ resolved, entry.2 = d.target := by
  obtain ⟨r, hr, target, htarget, _, ht⟩ := SourceText.exists_reference_of_mem_edges hd
  obtain ⟨entry, hentry, he⟩ := List.mem_map.mp (h.request_mem hs hr)
  obtain ⟨target', htarget', hnormal⟩ := h.targets entry hentry
  rw [he] at htarget'
  have : target' = target := Except.ok.inj (htarget'.symm.trans htarget)
  exact ⟨entry, hentry, by rw [hnormal, this, ht]⟩

/-- The edge of one resolved request of a file. -/
theorem edge?_eq {s : SourceText} {r : Reference} {target : Path}
    (h : s.answer env.resolve r = .ok target) :
    s.edge? env.resolve r =
      if isTracked target.normalize then
        some (ResolveRequest.edgeTo ⟨s.path, s.directory,
          ResolveRequest.askedSpecifier s.directory r, r⟩ target.normalize)
      else none := by
  unfold SourceText.edge?
  rw [h]
  rfl

theorem edgesOf_append (p : Path) (xs ys : List (ResolveRequest × Path)) :
    edgesOf p (xs ++ ys) = edgesOf p xs ++ edgesOf p ys := by
  unfold edgesOf
  rw [List.filter_append, List.map_append]

theorem edgesOf_congr {p q : Path} (h : (p == q) = true) (xs : List (ResolveRequest × Path)) :
    edgesOf p xs = edgesOf q xs := by
  unfold edgesOf
  congr 2
  funext entry
  congr 1
  exact Bool.eq_iff_iff.mpr ⟨fun he => BEq.trans he h, fun he => BEq.trans he (BEq.symm h)⟩

/-- The requests for some references of one file give the edges of these references, and no edge
of another file. -/
theorem edgesOf_references (s : SourceText) (p : Path) (refs : List Reference)
    (hrequests : resolved.map Prod.fst = refs.map fun r =>
      ⟨s.path, s.directory, ResolveRequest.askedSpecifier s.directory r, r⟩)
    (htargets : ∀ entry ∈ resolved, ∃ target,
      env.resolve entry.1.context entry.1.specifier = .ok target ∧ entry.2 = target.normalize) :
    edgesOf p resolved =
      if s.path == p then refs.filterMap (s.edge? env.resolve) else [] := by
  induction refs generalizing resolved with
  | nil =>
    rw [List.map_eq_nil_iff.mp hrequests]
    split <;> rfl
  | cons r refs ih =>
    obtain ⟨entry, rest, rfl, hentry, hrest⟩ := List.map_eq_cons_iff.mp hrequests
    obtain ⟨target, htarget, hnormal⟩ := htargets entry (List.mem_cons_self ..)
    have ih := ih hrest fun e he => htargets e (List.mem_cons_of_mem _ he)
    rw [hentry] at htarget
    rw [← List.singleton_append, edgesOf_append, ih, List.filterMap_cons, edge?_eq htarget]
    unfold edgesOf
    rw [List.filter_singleton, hentry, hnormal]
    by_cases hp : (s.path == p) = true
    · by_cases ht : isTracked target.normalize = true
      · simp [hp, ht, hentry, hnormal]
      · simp [hp, ht]
    · simp [hp]

theorem edgesOf_flatMap (h : ResolvedLevel env level resolved) (p : Path) :
    edgesOf p resolved =
      level.flatMap fun s => if s.path == p then s.edges env.resolve else [] := by
  -- on the level: the requests of its first file stand before those of the others
  induction level generalizing resolved with
  | nil =>
    rw [List.map_eq_nil_iff.mp h.requests]
    rfl
  | cons s level ih =>
    obtain ⟨xs, ys, rfl, hxs, hys⟩ := List.map_eq_append_iff.mp h.requests
    rw [edgesOf_append, List.flatMap_cons]
    congr 1
    · rw [SourceText.ofSource_eq] at hxs
      exact edgesOf_references s p _ hxs fun e he => h.targets e (List.mem_append_left _ he)
    · exact ih ⟨hys, fun e he => h.targets e (List.mem_append_right _ he)⟩

theorem isIn_paths_iff {ss : List SourceText} {p : Path} :
    isIn p (ss.map SourceText.path) = true ↔ ∃ s ∈ ss, (s.path == p) = true := by
  rw [isIn, List.any_map, List.any_eq_true]
  rfl

/-- The files of a level differ, and are given by their normal paths. -/
structure Separate (level : List SourceText) : Prop where
  normal : ∀ s ∈ level, s.path.IsNormal
  distinct : (level.map SourceText.path).Nodup

/-- **The edges that a level finds for one of its files are those of its text.** -/
theorem edgesOf_resolved (h : ResolvedLevel env level resolved) (hl : Separate level)
    {s : SourceText} (hs : s ∈ level) : edgesOf s.path resolved = s.edges env.resolve := by
  rw [edgesOf_flatMap h]
  obtain ⟨before, after, rfl⟩ := List.append_of_mem hs
  -- no other file of the level has the path
  have hother : ∀ t, t ∈ before ∨ t ∈ after → (t.path == s.path) = false := by
    intro t ht
    have hmem : t ∈ before ++ s :: after := by
      rcases ht with ht | ht <;> simp [ht]
    have hne : t.path ≠ s.path := by
      have hd := hl.distinct
      rw [List.map_append, List.map_cons, List.nodup_middle, List.nodup_cons] at hd
      intro he
      refine hd.1 (he ▸ ?_)
      rw [← List.map_append]
      exact List.mem_map_of_mem (List.mem_append.mpr ht)
    by_contra hb
    exact hne ((hl.normal t hmem).eq_of_beq (hl.normal s hs) (by simpa using hb))
  have hnil : ∀ ts : List SourceText, (∀ t ∈ ts, (t.path == s.path) = false) →
      ts.flatMap (fun t => if t.path == s.path then t.edges env.resolve else []) = [] := by
    intro ts hts
    refine List.flatMap_eq_nil_iff.mpr fun t ht => ?_
    rw [hts t ht]
    rfl
  rw [List.flatMap_append, List.flatMap_cons, hnil before fun t ht => hother t (.inl ht),
    hnil after fun t ht => hother t (.inr ht), if_pos BEq.rfl, List.append_nil, List.nil_append]

/-! ## Connecting a level -/

variable {w : Workspace}

theorem dependencies_foldl_setEdges (level : List SourceText)
    (resolved : List (ResolveRequest × Path)) (g : DependencyGraph) (p : Path) :
    (level.foldl (fun g s => g.setEdges s.path (edgesOf s.path resolved)) g).dependencies p =
      if isIn p (level.map SourceText.path) then edgesOf p resolved else g.dependencies p := by
  induction level generalizing g with
  | nil => rfl
  | cons s level ih =>
    rw [List.foldl_cons, ih, dependencies_setEdges]
    by_cases hs : (s.path == p) = true
    · simp [isIn, hs, edgesOf_congr hs]
    · simp [isIn, hs]

/-- The files of the level get the edges that were found, and all others keep theirs. -/
theorem dependencies_connect (w : Workspace) (level : List SourceText)
    (resolved : List (ResolveRequest × Path)) (p : Path) :
    (w.connect level resolved).graph.dependencies p =
      if isIn p (level.map SourceText.path) then edgesOf p resolved
      else w.graph.dependencies p :=
  dependencies_foldl_setEdges level resolved w.graph p

theorem coherent_connect (h : w.graph.Coherent) (level : List SourceText)
    (resolved : List (ResolveRequest × Path)) : (w.connect level resolved).graph.Coherent := by
  show (level.foldl (fun g s => g.setEdges s.path (edgesOf s.path resolved)) w.graph).Coherent
  generalize w.graph = g at h
  induction level generalizing g with
  | nil => exact h
  | cons s level ih => exact ih _ (h.setEdges s.path _)

theorem mem_dependents_connect (h : w.graph.Coherent) {t p : Path}
    (hp : p ∈ (w.connect level resolved).graph.dependents t) :
    p ∈ level.map SourceText.path ∨ p ∈ w.graph.dependents t := by
  change p ∈ (level.foldl (fun g s => g.setEdges s.path (edgesOf s.path resolved))
    w.graph).dependents t at hp
  generalize w.graph = g at h hp ⊢
  induction level generalizing g with
  | nil => exact Or.inr hp
  | cons s level ih =>
    rw [List.map_cons, List.mem_cons, or_assoc, or_left_comm]
    exact (ih _ (h.setEdges s.path _) hp).imp_right h.mem_dependents_setEdges

/-! ## What is wanted next -/

theorem mem_wanted {t : Path} (h : ResolvedLevel env level resolved) :
    t ∈ w.wanted resolved ↔
      (∃ s ∈ level, ∃ d ∈ s.edges env.resolve, d.target = t) ∧ w.files.contains t = false := by
  have htargets : ∀ p ∈ resolved.map Prod.snd, p.IsNormal := by
    intro p hp
    obtain ⟨entry, hentry, rfl⟩ := List.mem_map.mp hp
    obtain ⟨target, _, htarget⟩ := h.targets entry hentry
    exact htarget ▸ isNormal_normalize target
  constructor
  · intro ht
    obtain ⟨hmem, hkeep⟩ := List.mem_filter.mp (mem_of_mem_setOf ht)
    rw [Bool.and_eq_true, Bool.not_eq_true'] at hkeep
    refine ⟨?_, hkeep.2⟩
    obtain ⟨entry, hentry, rfl⟩ := List.mem_map.mp hmem
    exact h.exists_mem_edges hentry hkeep.1
  · rintro ⟨⟨s, hs, d, hd, rfl⟩, hnew⟩
    obtain ⟨entry, hentry, htarget⟩ := h.exists_entry hs hd
    have hmem : d.target ∈ (resolved.map Prod.snd).filter fun target =>
        isTracked target && !w.files.contains target := by
      refine List.mem_filter.mpr ⟨htarget ▸ List.mem_map_of_mem hentry, ?_⟩
      rw [SourceText.isTracked_of_mem_edges hd, hnew]
      rfl
    -- the set has the target up to its spelling, and all spellings here are normal
    have hin : isIn d.target (w.wanted resolved) = true := by
      rw [wanted, isIn_setOf]
      exact isIn_of_mem hmem
    obtain ⟨p, hp, he⟩ := isIn_iff.mp hin
    have hnormal := htargets p (List.mem_filter.mp (mem_of_mem_setOf hp)).1
    rw [← hnormal.eq_of_beq (SourceText.isNormal_target_of_mem_edges hd) he]
    exact hp

theorem nodup_wanted (w : Workspace) (resolved : List (ResolveRequest × Path)) :
    (w.wanted resolved).Nodup :=
  (ascending_setOf _).nodup

end Workspace

end TypeScriptEngine
