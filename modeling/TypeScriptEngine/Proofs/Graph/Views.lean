import TypeScriptEngine.Graph.Dependency
import TypeScriptEngine.Proofs.Path.Set

/-! # The two views of a dependency graph

A graph is `Coherent` if its two views hold the same edges, without empty entries.  Every operation
keeps it coherent, and acts on the edges of each file as on a plain map: `addEdge` appends,
`setEdges` replaces, and `removeFile` takes out the edges of a file and those to it.  A coherent
graph is determined by the edges of its files (`Coherent.ext`), so that the reverse view never has
to be looked at.
-/

namespace TypeScriptEngine

open TypeScriptEngine.Graph TypeScriptEngine.Path

/-! ## Maps of lists -/

namespace Path

variable {β : Type}

/-- Keeps some of the values of a path; an entry without values goes. -/
def narrow (p : Path) (keep : β → Bool) (map : List (Path × List β)) : List (Path × List β) :=
  match find? p map with
  | none => map
  | some bs =>
    if (bs.filter keep).isEmpty then removeFrom p map else alter p (fun _ => bs.filter keep) map

/-- No entry is empty. -/
def NoEmpty (map : List (Path × List β)) : Prop := ∀ p, find? p map ≠ some []

variable {p : Path} {keep : β → Bool} {map : List (Path × List β)}

theorem find?_narrow (p q : Path) (keep : β → Bool) (map : List (Path × List β)) :
    (find? q (narrow p keep map)).getD [] =
      if p == q then ((find? q map).getD []).filter keep else (find? q map).getD [] := by
  unfold narrow
  split
  · rename_i hnone
    split
    · rename_i hpq
      rw [← find?_congr hpq, hnone]
      rfl
    · rfl
  · rename_i bs hsome
    by_cases hpq : (p == q) = true
    · rw [if_pos hpq, ← find?_congr hpq map, hsome]
      split
      · rename_i hempty
        rw [find?_removeFrom, if_pos hpq]
        exact (List.isEmpty_iff.mp hempty).symm
      · rw [find?_alter, if_pos hpq]
        rfl
    · rw [if_neg hpq]
      split
      · rw [find?_removeFrom, if_neg hpq]
      · rw [find?_alter, if_neg hpq]

theorem NoEmpty.removeFrom (h : NoEmpty map) (p : Path) : NoEmpty (removeFrom p map) := by
  intro q
  rw [find?_removeFrom]
  split
  · simp
  · exact h q

theorem NoEmpty.alter (h : NoEmpty map) {f : Option (List β) → List β} (hf : ∀ b, f b ≠ []) :
    NoEmpty (alter p f map) := by
  intro q
  rw [find?_alter]
  split
  · intro he
    exact hf _ (Option.some.inj he)
  · exact h q

theorem NoEmpty.narrow (h : NoEmpty map) : NoEmpty (narrow p keep map) := by
  unfold Path.narrow
  split
  · exact h
  · split
    · exact h.removeFrom p
    · rename_i hne
      exact h.alter fun _ he => hne (List.isEmpty_iff.mpr he)

theorem DistinctKeys.narrow (h : DistinctKeys map) : DistinctKeys (narrow p keep map) := by
  unfold Path.narrow
  split
  · exact h
  · split
    · exact h.removeFrom p
    · exact h.alter p _

/-- A map without empty entries is determined by the values of each path. -/
theorem NoEmpty.find?_eq {map' : List (Path × List β)} (h : NoEmpty map) (h' : NoEmpty map')
    (hp : (find? p map).getD [] = (find? p map').getD []) : find? p map = find? p map' := by
  have := h p
  have := h' p
  cases hm : find? p map <;> cases hm' : find? p map' <;> simp_all

end Path

namespace DependencyGraph

/-! ## Coherent graphs -/

/-- Both views hold the same edges, and each is a map without empty entries. -/
structure Coherent (g : DependencyGraph) : Prop where
  forwardKeys : DistinctKeys g.forward
  forwardEntries : NoEmpty g.forward
  backwardKeys : DistinctKeys g.backward
  backwardEntries : NoEmpty g.backward
  ascending : ∀ target, Ascending (g.dependents target)
  mirror : ∀ source target,
    isIn source (g.dependents target) = (g.dependencies source).any fun d => d.target == target

theorem coherent_empty : empty.Coherent where
  forwardKeys := List.Pairwise.nil
  forwardEntries := fun _ h => by contradiction
  backwardKeys := List.Pairwise.nil
  backwardEntries := fun _ h => by contradiction
  ascending := fun _ => List.Pairwise.nil
  mirror := fun _ _ => rfl

variable {g : DependencyGraph}

theorem dependencies_congr {p q : Path} (h : (p == q) = true) (g : DependencyGraph) :
    g.dependencies p = g.dependencies q := by
  unfold dependencies
  rw [find?_congr h]

/-! ## Adding an edge -/

theorem dependencies_addEdge (g : DependencyGraph) (source : Path) (d : Dependency) (p : Path) :
    (g.addEdge source d).dependencies p =
      if source == p then g.dependencies p ++ [d] else g.dependencies p := by
  unfold dependencies addEdge
  rw [find?_alter]
  split
  · rename_i h
    rw [find?_congr h]
    rfl
  · rfl

theorem dependents_addEdge (g : DependencyGraph) (source : Path) (d : Dependency) (p : Path) :
    (g.addEdge source d).dependents p =
      if d.target == p then source.insertInto (g.dependents p) else g.dependents p := by
  unfold dependents addEdge
  rw [find?_alter]
  split
  · rename_i h
    rw [find?_congr h]
    rfl
  · rfl

theorem insertInto_ne_nil (p : Path) (ps : List Path) : p.insertInto ps ≠ [] := by
  cases ps with
  | nil => simp [insertInto]
  | cons q qs =>
    unfold insertInto
    split <;> simp

theorem Coherent.addEdge (h : g.Coherent) (source : Path) (d : Dependency) :
    (g.addEdge source d).Coherent where
  forwardKeys := h.forwardKeys.alter _ _
  forwardEntries := h.forwardEntries.alter fun _ => by simp
  backwardKeys := h.backwardKeys.alter _ _
  backwardEntries := h.backwardEntries.alter fun _ => insertInto_ne_nil _ _
  ascending := by
    intro target
    rw [dependents_addEdge]
    split
    · exact ascending_insertInto _ (h.ascending target)
    · exact h.ascending target
  mirror := by
    intro s target
    rw [dependents_addEdge, dependencies_addEdge]
    by_cases ht : (d.target == target) = true
    · rw [if_pos ht, isIn_insertInto, h.mirror]
      by_cases hs : (source == s) = true
      · simp [hs, ht]
      · simp [hs]
    · rw [if_neg ht, h.mirror]
      by_cases hs : (source == s) = true
      · simp [hs, ht]
      · simp [hs]

theorem dependencies_foldl_addEdge (source : Path) (edges : List Dependency)
    (g : DependencyGraph) (p : Path) :
    (edges.foldl (fun g d => g.addEdge source d) g).dependencies p =
      if source == p then g.dependencies p ++ edges else g.dependencies p := by
  induction edges generalizing g with
  | nil => simp
  | cons d edges ih =>
    rw [List.foldl_cons, ih, dependencies_addEdge]
    split <;> simp

theorem Coherent.foldl_addEdge (h : g.Coherent) (source : Path) (edges : List Dependency) :
    (edges.foldl (fun g d => g.addEdge source d) g).Coherent := by
  induction edges generalizing g with
  | nil => exact h
  | cons d edges ih => exact ih (h.addEdge source d)

/-! ## Clearing the edges of a file -/

theorem dropBackward_eq_narrow (source target : Path) (backward : List (Path × List Path)) :
    dropBackward source target backward =
      narrow target (fun file => !(file == source)) backward := by
  unfold dropBackward narrow
  cases find? target backward <;> rfl

theorem dropForward_eq_narrow (target source : Path) (forward : List (Path × List Dependency)) :
    dropForward target source forward =
      narrow source (fun d => !(d.target == target)) forward := by
  unfold dropForward narrow
  cases find? source forward <;> rfl

/-- Narrowing several entries narrows those whose paths are listed. -/
theorem find?_foldl_narrow {α β : Type} (key : α → Path) (keep : β → Bool) (as : List α)
    (map : List (Path × List β)) (q : Path) :
    (find? q (as.foldl (fun map a => narrow (key a) keep map) map)).getD [] =
      if as.any fun a => key a == q then ((find? q map).getD []).filter keep
      else (find? q map).getD [] := by
  induction as generalizing map with
  | nil => rfl
  | cons a as ih =>
    rw [List.foldl_cons, ih, find?_narrow, List.any_cons]
    by_cases ha : (key a == q) = true
    · simp [ha]
    · simp [ha]

theorem foldl_narrow_inv {α β : Type} (key : α → Path) (keep : β → Bool) (as : List α)
    {map : List (Path × List β)} (hk : DistinctKeys map) (he : NoEmpty map) :
    DistinctKeys (as.foldl (fun map a => narrow (key a) keep map) map) ∧
      NoEmpty (as.foldl (fun map a => narrow (key a) keep map) map) := by
  induction as generalizing map with
  | nil => exact ⟨hk, he⟩
  | cons a as ih => exact ih hk.narrow he.narrow

theorem backward_clearEdges (g : DependencyGraph) (source : Path) :
    (g.clearEdges source).backward = (g.dependencies source).foldl
      (fun backward d => narrow d.target (fun file => !(file == source)) backward) g.backward := by
  simp only [clearEdges, dropBackward_eq_narrow]

theorem dependencies_clearEdges (g : DependencyGraph) (source p : Path) :
    (g.clearEdges source).dependencies p = if source == p then [] else g.dependencies p := by
  unfold dependencies clearEdges
  rw [find?_removeFrom]
  split <;> rfl

theorem filter_ne_eq_self {ps : List Path} {p : Path} (h : isIn p ps = false) :
    ps.filter (fun q => !(q == p)) = ps := by
  refine List.filter_eq_self.mpr fun q hq => ?_
  simp only [isIn, List.any_eq_false] at h
  simpa using h q hq

theorem Coherent.dependents_clearEdges (h : g.Coherent) (source target : Path) :
    (g.clearEdges source).dependents target =
      (g.dependents target).filter fun file => !(file == source) := by
  rw [dependents, backward_clearEdges, find?_foldl_narrow]
  split
  · rfl
  · rename_i hany
    rw [← h.mirror, Bool.not_eq_true] at hany
    exact (filter_ne_eq_self hany).symm

theorem isIn_filter_ne (p q : Path) (ps : List Path) :
    isIn q (ps.filter fun r => !(r == p)) = (!(p == q) && isIn q ps) := by
  apply Bool.eq_iff_iff.mpr
  rw [isIn_iff, Bool.and_eq_true, isIn_iff]
  constructor
  · rintro ⟨r, hr, he⟩
    obtain ⟨hr, hne⟩ := List.mem_filter.mp hr
    refine ⟨?_, r, hr, he⟩
    by_contra hpq
    have : (r == p) = true := BEq.trans he (BEq.symm (by simpa using hpq))
    simp [this] at hne
  · rintro ⟨hne, r, hr, he⟩
    refine ⟨r, List.mem_filter.mpr ⟨hr, ?_⟩, he⟩
    by_contra hrp
    have : (p == q) = true := BEq.trans (BEq.symm (by simpa using hrp)) he
    simp [this] at hne

theorem Coherent.clearEdges (h : g.Coherent) (source : Path) : (g.clearEdges source).Coherent where
  forwardKeys := h.forwardKeys.removeFrom _
  forwardEntries := h.forwardEntries.removeFrom _
  backwardKeys := by
    rw [backward_clearEdges]
    exact (foldl_narrow_inv _ _ _ h.backwardKeys h.backwardEntries).1
  backwardEntries := by
    rw [backward_clearEdges]
    exact (foldl_narrow_inv _ _ _ h.backwardKeys h.backwardEntries).2
  ascending := by
    intro target
    rw [h.dependents_clearEdges]
    exact (h.ascending target).filter _
  mirror := by
    intro s target
    rw [h.dependents_clearEdges, isIn_filter_ne, h.mirror, dependencies_clearEdges]
    split <;> simp_all

/-! ## Replacing the edges of a file -/

theorem dependencies_setEdges (g : DependencyGraph) (source : Path) (edges : List Dependency)
    (p : Path) :
    (g.setEdges source edges).dependencies p = if source == p then edges else g.dependencies p := by
  unfold setEdges
  rw [dependencies_foldl_addEdge, dependencies_clearEdges]
  split <;> simp

theorem Coherent.setEdges (h : g.Coherent) (source : Path) (edges : List Dependency) :
    (g.setEdges source edges).Coherent :=
  (h.clearEdges source).foldl_addEdge source edges

theorem mem_dependents_foldl_addEdge {source p t : Path} {edges : List Dependency}
    (h : p ∈ (edges.foldl (fun g d => g.addEdge source d) g).dependents t) :
    p = source ∨ p ∈ g.dependents t := by
  induction edges generalizing g with
  | nil => exact Or.inr h
  | cons d edges ih =>
    rcases ih h with h | h
    · exact Or.inl h
    · rw [dependents_addEdge] at h
      split at h
      · exact mem_of_mem_insertInto h
      · exact Or.inr h

/-- Only the file itself comes to refer to anything new. -/
theorem Coherent.mem_dependents_setEdges (h : g.Coherent) {source p t : Path}
    {edges : List Dependency} (hp : p ∈ (g.setEdges source edges).dependents t) :
    p = source ∨ p ∈ g.dependents t := by
  refine (mem_dependents_foldl_addEdge hp).imp_right fun hp => ?_
  rw [h.dependents_clearEdges] at hp
  exact (List.mem_filter.mp hp).1

/-! ## Removing a file -/

theorem forward_removeFile (g : DependencyGraph) (file : Path) :
    (g.removeFile file).forward = ((g.clearEdges file).dependents file).foldl
      (fun forward source => narrow source (fun d => !(d.target == file)) forward)
        (g.clearEdges file).forward := by
  simp only [removeFile, dropForward_eq_narrow]

theorem Coherent.dependencies_removeFile (h : g.Coherent) (file p : Path) :
    (g.removeFile file).dependencies p =
      if file == p then [] else (g.dependencies p).filter fun d => !(d.target == file) := by
  have hc := h.clearEdges file
  rw [dependencies, forward_removeFile, find?_foldl_narrow fun s => s]
  -- whoever has an edge to the file is among its dependents
  have hfilter : ∀ q, isIn q ((g.clearEdges file).dependents file) = false →
      ((g.clearEdges file).dependencies q).filter (fun d => !(d.target == file)) =
        (g.clearEdges file).dependencies q := by
    intro q hq
    rw [hc.mirror, List.any_eq_false] at hq
    exact List.filter_eq_self.mpr fun d hd => by simpa using hq d hd
  have hdeps := dependencies_clearEdges g file p
  unfold dependencies at hdeps hfilter ⊢
  split
  · rw [hdeps]
    split <;> rfl
  · rename_i hin
    rw [← hfilter p (Bool.not_eq_true _ ▸ hin), hdeps]
    split <;> rfl

theorem Coherent.dependents_removeFile (h : g.Coherent) (file target : Path) :
    (g.removeFile file).dependents target =
      if file == target then [] else (g.dependents target).filter fun s => !(s == file) := by
  rw [← h.dependents_clearEdges]
  unfold dependents removeFile
  rw [find?_removeFrom]
  split <;> rfl

theorem Coherent.removeFile (h : g.Coherent) (file : Path) : (g.removeFile file).Coherent where
  forwardKeys := by
    rw [forward_removeFile]
    exact (foldl_narrow_inv _ _ _ (h.clearEdges file).forwardKeys
      (h.clearEdges file).forwardEntries).1
  forwardEntries := by
    rw [forward_removeFile]
    exact (foldl_narrow_inv _ _ _ (h.clearEdges file).forwardKeys
      (h.clearEdges file).forwardEntries).2
  backwardKeys := (h.clearEdges file).backwardKeys.removeFrom _
  backwardEntries := (h.clearEdges file).backwardEntries.removeFrom _
  ascending := by
    intro target
    rw [h.dependents_removeFile]
    split
    · exact List.Pairwise.nil
    · exact (h.ascending target).filter _
  mirror := by
    intro s target
    rw [h.dependents_removeFile, h.dependencies_removeFile]
    by_cases ht : (file == target) = true
    · rw [if_pos ht]
      split
      · rfl
      · symm
        rw [List.any_filter]
        refine List.any_eq_false.mpr fun d _ hd => ?_
        rw [Bool.and_eq_true] at hd
        have : (d.target == file) = true := BEq.trans hd.2 (BEq.symm ht)
        simp [this] at hd
    · rw [if_neg ht, isIn_filter_ne, h.mirror]
      by_cases hs : (file == s) = true
      · simp [hs]
      · simp only [hs, Bool.not_false, Bool.true_and, if_false, List.any_filter, Bool.false_eq_true]
        congr 1
        funext d
        by_cases hd : (d.target == target) = true
        · have : (d.target == file) = false := by
            by_contra hf
            exact ht (BEq.trans (BEq.symm (by simpa using hf)) hd)
          simp [hd, this]
        · simp [hd]

/-! ## What a coherent graph is -/

/-- The graph's own test finds no fault. -/
theorem Coherent.isConsistent (h : g.Coherent) : g.isConsistent = true := by
  unfold DependencyGraph.isConsistent
  rw [Bool.and_eq_true, List.all_eq_true, List.all_eq_true]
  constructor
  · intro entry hentry
    have hdeps : g.dependencies entry.1 = entry.2 := by
      rw [dependencies, find?_of_mem h.forwardKeys hentry]
      rfl
    refine List.all_eq_true.mpr fun d hd => ?_
    rw [h.mirror, hdeps]
    exact List.any_eq_true.mpr ⟨d, hd, BEq.rfl⟩
  · intro entry hentry
    have hfind := find?_of_mem h.backwardKeys hentry
    have hdeps : g.dependents entry.1 = entry.2 := by
      rw [dependents, hfind]
      rfl
    refine Bool.and_eq_true _ _ ▸ ⟨?_, List.all_eq_true.mpr fun s hs => ?_⟩
    · have hne : entry.2 ≠ [] := fun he => h.backwardEntries entry.1 (he ▸ hfind)
      simpa using hne
    · rw [← h.mirror, hdeps]
      exact isIn_of_mem hs

/-- **A coherent graph is determined by the edges of its files,** if the files that refer to others
have one spelling each. -/
theorem Coherent.ext {g' : DependencyGraph} (h : g.Coherent) (h' : g'.Coherent)
    (hspell : ∀ t, ∀ p ∈ g.dependents t, ∀ q ∈ g'.dependents t, (p == q) = true → p = q)
    (hdeps : ∀ p, g.dependencies p = g'.dependencies p) (p : Path) :
    find? p g.forward = find? p g'.forward ∧ find? p g.backward = find? p g'.backward := by
  -- the reverse view has the same members for each file, and so the same ascending lists
  refine ⟨h.forwardEntries.find?_eq h'.forwardEntries (hdeps p),
    h.backwardEntries.find?_eq h'.backwardEntries ?_⟩
  refine eq_of_isIn_iff (h.ascending p) (h'.ascending p) (hspell p) fun q => ?_
  exact (h.mirror q p).trans (hdeps q ▸ (h'.mirror q p).symm)

end DependencyGraph

end TypeScriptEngine
