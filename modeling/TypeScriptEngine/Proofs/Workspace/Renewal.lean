import TypeScriptEngine.Proofs.Workspace.Change

/-! # Reading files again, in any order

`Reloaded` says what one reload makes of a workspace, and `Scanned` what a scan makes of it that
visits some of its files and reads those again whose noted time is out of date.  `Scanned` speaks of
the workspace before the scan and of the file tree only: the files that were read again have the
texts of the tree, and the new files are those that lie behind them along the edges of these texts.
So the order of the visits makes no difference to what there is in the end (`Scanned.unique`),
although it makes one to what there is on the way.
-/

namespace TypeScriptEngine

open TypeScriptEngine.Graph TypeScriptEngine.Path DependencyGraph

open Workspace in
/-- If more files are tracked, less is behind a root. -/
theorem Behind.anti {env : Surroundings} {w w' : Workspace} {root : SourceText} {p : Path}
    (h : Behind env w' root p) (hmono : ∀ q, w.Tracks q → w'.Tracks q) : Behind env w root p := by
  induction h with
  | root => exact .root
  | step _ htext hd hnew ih =>
    refine .step ih htext hd ?_
    by_contra hold
    have hold := hmono _ ⟨SourceText.isNormal_target_of_mem_edges hd, Bool.not_eq_false _ ▸ hold⟩
    rw [hold.tracked] at hnew
    contradiction

namespace Workspace

variable {env : Surroundings} {w w' w'' : Workspace} {p r : Path} {text : String}
  {visited : List Path}

/-! ## One file -/

/-- A file is as it is after a load has taken it in. -/
structure TakenIn (env : Surroundings) (w : Workspace) (p : Path) (text : String) : Prop where
  read : env.disk.read p = .ok text
  file : w.files.get? p = some (FileStore.newFile p text)
  dependencies : w.graph.dependencies p = SourceText.edges ⟨p, text⟩ env.resolve
  time : find? p w.declarationTimes = timeOf env.disk p

/-- A file that was tracked in `w` has another text in `w'`, the next version, and the edges of the
text. -/
structure Renewed (env : Surroundings) (w : Workspace) (p : Path) (text : String)
    (w' : Workspace) : Prop where
  file : ∀ file, w.files.get? p = some file →
    w'.files.get? p = some { file with text, version := file.version + 1 }
  dependencies : w'.graph.dependencies p = SourceText.edges ⟨p, text⟩ env.resolve

/-- What reading the file `r` again makes of a workspace. -/
structure Reloaded (env : Surroundings) (w : Workspace) (r : Path) (text : String)
    (w' : Workspace) : Prop where
  wellKept : w'.WellKept
  changes : ChangesOnly (· = r) w w'
  renewed : Renewed env w r text w'
  taken : ∀ p, w'.Tracks p → w.files.contains p = false →
    (∃ t, TakenIn env w' p t) ∧ Behind env w ⟨r, text⟩ p
  time : find? r w'.declarationTimes = (timeOf env.disk r).or (find? r w.declarationTimes)
  /-- Other times are noted for the files only that were taken in. -/
  times : ∀ p, (r == p) = false → (∀ q, w'.Tracks q → (q == p) = true → w.Tracks q) →
    find? p w'.declarationTimes = find? p w.declarationTimes

/-- A file is tracked if the store has a record of it. -/
theorem tracks_of_get? {file : TrackedFile} (hp : p.IsNormal) (h : w.files.get? p = some file) :
    w.Tracks p :=
  ⟨hp, contains_of_get? h⟩

theorem Tracks.exists_get? (h : w.Tracks p) : ∃ file, w.files.get? p = some file :=
  Option.isSome_iff_exists.mp h.tracked

theorem Tracks.ne (h : w.Tracks r) (hp : w.files.contains p = false) : p ≠ r := by
  rintro rfl
  rw [h.tracked] at hp
  contradiction

theorem Tracks.beq_eq_false (h : w.Tracks p) (hr : r.IsNormal) (hne : p ≠ r) :
    (r == p) = false := by
  by_contra hb
  exact hne (hr.eq_of_beq h.normal (Bool.not_eq_false _ ▸ hb)).symm

/-- A file that was changed in one place is still tracked. -/
theorem Renewed.tracks (h : Renewed env w p text w') (hp : w.Tracks p) : w'.Tracks p := by
  obtain ⟨file, hfile⟩ := hp.exists_get?
  exact tracks_of_get? hp.normal (h.file file hfile)

theorem Reloaded.tracks (h : Reloaded env w r text w') (hp : w.Tracks p) : w'.Tracks p := by
  by_cases hr : p = r
  · subst hr
    exact h.renewed.tracks hp
  · exact h.changes.tracks hp hr

section Loads

variable {root : SourceText} {before : List Path} {taken : List SourceText} {l : Loading}
  (h : Progress env w root before (root :: taken) [] taken l)

include h

/-- What a load has taken in is tracked, also when its root gets its text. -/
theorem Progress.tracks_taken (hroot : w.Tracks root.path) {s : SourceText} (hs : s ∈ taken) :
    (l.workspace.setText env.disk root.path root.text).Tracks s.path := by
  have hnormal := h.extension.separate.normal s hs
  have htracked := h.extension.contains_of_contains hroot.tracked
  refine ⟨hnormal, ?_⟩
  rw [setText_files, FileStore.contains_upsert htracked, h.extension.contains_iff hnormal]
  exact Or.inr (List.mem_map_of_mem hs)

theorem Progress.takenIn (hw : w.WellKept) (hroot : w.Tracks root.path) {s : SourceText}
    (hs : s ∈ taken) :
    TakenIn env (l.workspace.setText env.disk root.path root.text) s.path s.text := by
  have hlinked := h.toLinked hroot.tracked
  have hnew := h.extension.fresh s hs
  have hother := (h.tracks_taken hroot hs).beq_eq_false hroot.normal (hroot.ne hnew)
  refine ⟨h.texts s hs, ?_, ?_, ?_⟩
  · rw [setText_files, FileStore.get?_upsert_of_ne hlinked.tracked,
      (hlinked.wellKept hw).files.get?_eq_some_iff, hlinked.extension.files]
    · exact ⟨List.mem_append_right _ (List.mem_map_of_mem (f := SourceText.file) hs), rfl⟩
    · rw [hroot.normal, h.extension.separate.normal s hs]
      exact (hroot.ne hnew).symm
  · rw [setText_graph]
    exact hlinked.linked s (Or.inr hs)
  · rw [setText, find?_recordTime hother]
    show find? s.path l.workspace.declarationTimes = _
    rw [h.times s hs, hw.find?_times_eq_none hnew, Option.or_none]

/-- **A load that ends well reloads its root.** -/
theorem Progress.reloaded (hw : w.WellKept) (hroot : w.Tracks root.path) :
    Reloaded env w root.path root.text
      (l.workspace.setText env.disk root.path root.text) := by
  have hlinked := h.toLinked hroot.tracked
  have htracked := hlinked.tracked
  refine ⟨(hlinked.wellKept hw).setText htracked _,
    (hlinked.changesOnly hroot.normal).setText hroot.normal htracked _,
    ⟨fun file hfile => ?_, ?_⟩, fun p hp hnew => ?_, ?_, fun p hp hold => ?_⟩
  · have hpath := (hw.files.get?_eq_some_iff.mp hfile).2
    rw [setText_files, FileStore.get?_upsert htracked, hlinked.extension.files,
      FileStore.get?_append hroot.tracked, hfile, Option.map_some, FileStore.updated,
      if_pos (hpath ▸ BEq.rfl)]
  · rw [setText_graph]
    exact hlinked.linked root (Or.inl rfl)
  · have hin := hp.tracked
    rw [setText_files, FileStore.contains_upsert htracked,
      h.extension.contains_iff hp.normal, hnew] at hin
    obtain ⟨s, hs, rfl⟩ := List.mem_map.mp (hin.resolve_left Bool.false_ne_true)
    exact ⟨⟨s.text, h.takenIn hw hroot hs⟩, h.behind s hs⟩
  · rw [setText, find?_recordTime_self]
    congr 1
    exact h.extension.times root.path (h.extension.isIn_eq_false hroot.tracked)
  · rw [setText, find?_recordTime hp]
    refine h.extension.times p ?_
    by_contra hin
    obtain ⟨s, hs, he⟩ := isIn_paths_iff.mp (Bool.not_eq_false _ ▸ hin)
    have hfresh := h.extension.fresh s hs
    rw [(hold s.path (h.tracks_taken hroot hs) he).tracked] at hfresh
    contradiction

end Loads

/-- **A file that is read again is reloaded.** -/
theorem reloaded_of_refreshed (hw : w.WellKept) (hr : w.Tracks r)
    (h : (w.refresh env r text).result = .ok ()) :
    Reloaded env w r text ((w.refresh env r text).state.setText env.disk r text) := by
  obtain ⟨taken, l, hload, he⟩ := progress_of_refreshed hw hr.tracked h
  rw [hr.normal] at hload
  rw [he]
  exact hload.reloaded hw hr

/-! ## Several files -/

/-- The time that is noted of a file is not the one of the file tree. -/
def Stale (env : Surroundings) (w : Workspace) (p : Path) : Prop :=
  ∃ time noted, env.disk.modified? p = some time ∧ find? p w.declarationTimes = some noted ∧
    noted ≠ time

/-- What a scan makes of a workspace once it has visited some of its files. -/
structure Scanned (env : Surroundings) (w : Workspace) (visited : List Path) (w' : Workspace) :
    Prop where
  wellKept : w'.WellKept
  changes : ChangesOnly (fun p => p ∈ visited ∧ Stale env w p) w w'
  renewed : ∀ p ∈ visited, Stale env w p →
    ∃ text, env.disk.read p = .ok text ∧ Renewed env w p text w'
  taken : ∀ p, w'.Tracks p → w.files.contains p = false →
    (∃ text, TakenIn env w' p text) ∧ ∃ r ∈ visited, Stale env w r ∧
      ∃ text, env.disk.read r = .ok text ∧ Behind env w ⟨r, text⟩ p
  noted : ∀ p ∈ visited, find? p w'.declarationTimes =
    (timeOf env.disk p).or (find? p w.declarationTimes)
  /-- Other times are noted for the files only that were taken in. -/
  times : ∀ p, (∀ q ∈ visited, (q == p) = false) →
    (∀ q, w'.Tracks q → (q == p) = true → w.Tracks q) →
      find? p w'.declarationTimes = find? p w.declarationTimes

theorem scanned_nil (hw : w.WellKept) : Scanned env w [] w where
  wellKept := hw
  changes := ChangesOnly.refl _ w
  renewed := fun _ h => by contradiction
  taken := by
    intro p hp hnew
    rw [hp.tracked] at hnew
    contradiction
  noted := fun _ h => by contradiction
  times := fun _ _ _ => rfl

theorem Scanned.tracks (h : Scanned env w visited w') (hp : w.Tracks p) : w'.Tracks p := by
  by_cases hc : p ∈ visited ∧ Stale env w p
  · obtain ⟨text, _, hrenewed⟩ := h.renewed p hc.1 hc.2
    exact hrenewed.tracks hp
  · exact h.changes.tracks hp hc

section Visits

variable (h : Scanned env w visited w') (hvisited : ∀ p ∈ visited, w.Tracks p)
  (hr : w.Tracks r) (hfirst : r ∉ visited)

include hr hfirst in
/-- The paths of a scan are spelled differently from each other. -/
theorem not_visited : ∀ q ∈ visited, (∀ p ∈ visited, w.Tracks p) → (q == r) = false := by
  intro q hq hvisited
  refine hr.beq_eq_false (hvisited q hq).normal ?_
  rintro rfl
  exact hfirst hq

include h hvisited hr hfirst

/-- Before the visit of a file nothing has changed its time. -/
theorem Scanned.time_eq : find? r w'.declarationTimes = find? r w.declarationTimes := by
  refine h.times r (fun q hq => not_visited hr hfirst q hq hvisited) fun q hq he => ?_
  rwa [hq.normal.eq_of_beq hr.normal he]

theorem Scanned.stale_iff : Stale env w' r ↔ Stale env w r := by
  unfold Stale
  rw [h.time_eq hvisited hr hfirst]

/-- **A visit that reads the file again.** -/
theorem Scanned.reload (hstale : Stale env w r) (hread : env.disk.read r = .ok text)
    (hl : Reloaded env w' r text w'') : Scanned env w (visited ++ [r]) w'' where
  wellKept := hl.wellKept
  changes := by
    refine (h.changes.mono fun p hp => ?_).trans (hl.changes.mono fun p hp => ?_)
    · exact ⟨List.mem_append_left _ hp.1, hp.2⟩
    · subst hp
      exact ⟨List.mem_append_right _ (List.mem_singleton_self p), hstale⟩
  renewed := by
    intro p hp hp'
    rcases List.mem_append.mp hp with hp | hp
    · have hne : p ≠ r := fun he => hfirst (he ▸ hp)
      have htracks := h.tracks (hvisited p hp)
      obtain ⟨t, ht, hrenewed⟩ := h.renewed p hp hp'
      refine ⟨t, ht, fun file hfile => ?_, ?_⟩
      · rw [hl.changes.files p htracks hne]
        exact hrenewed.file file hfile
      · rw [hl.changes.dependencies p htracks hne]
        exact hrenewed.dependencies
    · obtain rfl := List.mem_singleton.mp hp
      refine ⟨text, hread, fun file hfile => hl.renewed.file file ?_, hl.renewed.dependencies⟩
      rwa [h.changes.files p hr fun hc => hfirst hc.1]
  taken := by
    intro p hp hnew
    cases hp' : w'.files.contains p with
    | true =>
      have htracks : w'.Tracks p := ⟨hp.normal, hp'⟩
      obtain ⟨⟨t, ht⟩, q, hq, hq', hbehind⟩ := h.taken p htracks hnew
      refine ⟨⟨t, ht.read, ?_, ?_, ?_⟩, q, List.mem_append_left _ hq, hq', hbehind⟩
      · rw [hl.changes.files p htracks (hr.ne hnew), ht.file]
      · rw [hl.changes.dependencies p htracks (hr.ne hnew), ht.dependencies]
      · rw [hl.times p (htracks.beq_eq_false hr.normal (hr.ne hnew)), ht.time]
        exact fun q hq he => hq.normal.eq_of_beq hp.normal he ▸ htracks
    | false =>
      obtain ⟨ht, hbehind⟩ := hl.taken p hp hp'
      exact ⟨ht, r, List.mem_append_right _ (List.mem_singleton_self r), hstale, text, hread,
        hbehind.anti fun _ => h.tracks⟩
  noted := by
    intro p hp
    rcases List.mem_append.mp hp with hp | hp
    · have htracks := h.tracks (hvisited p hp)
      rw [hl.times p, h.noted p hp]
      · exact htracks.beq_eq_false hr.normal fun he => hfirst (he ▸ hp)
      · exact fun q hq he => hq.normal.eq_of_beq htracks.normal he ▸ htracks
    · obtain rfl := List.mem_singleton.mp hp
      rw [hl.time, h.time_eq hvisited hr hfirst]
  times := by
    intro p hout hold
    rw [hl.times p, h.times p]
    · exact fun q hq => hout q (List.mem_append_left _ hq)
    · exact fun q hq he => hold q (hl.tracks hq) he
    · exact hout r (List.mem_append_right _ (List.mem_singleton_self r))
    · exact fun q hq he => h.tracks (hold q hq he)

/-- **A visit that leaves the file as it is.** -/
theorem Scanned.pass (hfresh : ¬ Stale env w r) (hw : w''.WellKept) (hfiles : w''.files = w'.files)
    (hgraph : w''.graph = w'.graph)
    (htime : find? r w''.declarationTimes =
      (timeOf env.disk r).or (find? r w.declarationTimes))
    (htimes : ∀ p, (r == p) = false →
      find? p w''.declarationTimes = find? p w'.declarationTimes) :
    Scanned env w (visited ++ [r]) w'' where
  wellKept := hw
  changes := by
    refine (h.changes.mono fun p hp => ?_).trans ⟨fun p _ _ => ?_, fun p _ _ => ?_⟩
    · exact ⟨List.mem_append_left _ hp.1, hp.2⟩
    · rw [hfiles]
    · rw [hgraph]
  renewed := by
    intro p hp hp'
    rcases List.mem_append.mp hp with hp | hp
    · obtain ⟨t, ht, hrenewed⟩ := h.renewed p hp hp'
      exact ⟨t, ht, fun file hfile => hfiles ▸ hrenewed.file file hfile,
        hgraph ▸ hrenewed.dependencies⟩
    · exact absurd (List.mem_singleton.mp hp ▸ hp') hfresh
  taken := by
    intro p hp hnew
    have hp : w'.Tracks p := ⟨hp.normal, hfiles ▸ hp.tracked⟩
    obtain ⟨⟨t, ht⟩, q, hq, hq', hbehind⟩ := h.taken p hp hnew
    refine ⟨⟨t, ht.read, hfiles ▸ ht.file, hgraph ▸ ht.dependencies, ?_⟩, q,
      List.mem_append_left _ hq, hq', hbehind⟩
    rw [htimes p (hp.beq_eq_false hr.normal (hr.ne hnew)), ht.time]
  noted := by
    intro p hp
    rcases List.mem_append.mp hp with hp | hp
    · rw [htimes p, h.noted p hp]
      exact (hvisited p hp).beq_eq_false hr.normal fun he => hfirst (he ▸ hp)
    · obtain rfl := List.mem_singleton.mp hp
      exact htime
  times := by
    intro p hout hold
    rw [htimes p, h.times p]
    · exact fun q hq => hout q (List.mem_append_left _ hq)
    · exact fun q hq he => hold q ⟨hq.normal, hfiles ▸ hq.tracked⟩ he
    · exact hout r (List.mem_append_right _ (List.mem_singleton_self r))

end Visits

/-! ## The order makes no difference -/

/-- The same files, edges and times for every path. -/
structure SameContents (w w' : Workspace) : Prop where
  files : ∀ p, w'.files.get? p = w.files.get? p
  forward : ∀ p, find? p w'.graph.forward = find? p w.graph.forward
  backward : ∀ p, find? p w'.graph.backward = find? p w.graph.backward
  times : ∀ p, find? p w'.declarationTimes = find? p w.declarationTimes

/-- Where edges start there is a tracked file, however the path is spelled. -/
theorem WellKept.exists_tracks (hw : w.WellKept) (hp : w.graph.dependencies p ≠ []) :
    ∃ q, w.Tracks q ∧ (q == p) = true := by
  obtain ⟨d, hd⟩ := List.exists_mem_of_ne_nil _ hp
  have hmirror := hw.graph.mirror p d.target
  have hedge : (w.graph.dependencies p).any (fun e => e.target == d.target) = true :=
    List.any_eq_true.mpr ⟨d, hd, BEq.rfl⟩
  obtain ⟨q, hq, he⟩ := isIn_iff.mp (hmirror.trans hedge)
  exact ⟨q, ⟨hw.dependents _ q hq, FileStore.contains_congr he _ ▸ hw.sources p hp⟩, he⟩

/-- Workspaces that track the same files and agree on each of them have the same contents. -/
theorem SameContents.of_tracks (hw : w.WellKept) (hw' : w'.WellKept)
    (htracks : ∀ p, w'.Tracks p ↔ w.Tracks p)
    (hfiles : ∀ p, w.Tracks p → w'.files.get? p = w.files.get? p)
    (hdependencies : ∀ p, w.Tracks p → w'.graph.dependencies p = w.graph.dependencies p)
    (htimes : ∀ p, find? p w'.declarationTimes = find? p w.declarationTimes) :
    SameContents w w' := by
  have hall : ∀ p, w'.graph.dependencies p = w.graph.dependencies p := by
    intro p
    by_cases hp : ∃ q, w.Tracks q ∧ (q == p) = true
    · obtain ⟨q, hq, he⟩ := hp
      rw [← dependencies_congr he, ← dependencies_congr he]
      exact hdependencies q hq
    · have hnil : w.graph.dependencies p = [] := by
        by_contra hne
        exact hp (hw.exists_tracks hne)
      rw [hnil]
      by_contra hne
      obtain ⟨q, hq, he⟩ := hw'.exists_tracks hne
      exact hp ⟨q, (htracks q).mp hq, he⟩
  have hviews := hw'.graph.ext hw.graph
    (fun t p hp q hq he => (hw'.dependents t p hp).eq_of_beq (hw.dependents t q hq) he) hall
  refine ⟨fun p => ?_, fun p => (hviews p).1, fun p => (hviews p).2, htimes⟩
  rw [← FileStore.get?_normalize w'.files, ← FileStore.get?_normalize w.files]
  by_cases hp : w.Tracks p.normalize
  · exact hfiles _ hp
  · have hnone : ∀ {v : Workspace}, ¬ v.Tracks p.normalize → v.files.get? p.normalize = none := by
      intro v hv
      by_contra hne
      obtain ⟨file, hfile⟩ := Option.ne_none_iff_exists'.mp hne
      exact hv (tracks_of_get? (isNormal_normalize p) hfile)
    rw [hnone hp, hnone fun hp' => hp ((htracks _).mp hp')]

/-- A file that was read again or taken in has the edges of its text. -/
theorem Scanned.dependencies_eq (h : Scanned env w visited w') (hp : w'.Tracks p)
    (hread : env.disk.read p = .ok text)
    (hnew : p ∈ visited ∧ Stale env w p ∨ w.files.contains p = false) :
    w'.graph.dependencies p = SourceText.edges ⟨p, text⟩ env.resolve := by
  rcases hnew with ⟨hmem, hstale⟩ | hnew
  · obtain ⟨t, ht, hrenewed⟩ := h.renewed p hmem hstale
    obtain rfl := Except.ok.inj (ht.symm.trans hread)
    exact hrenewed.dependencies
  · obtain ⟨⟨t, ht⟩, _⟩ := h.taken p hp hnew
    obtain rfl := Except.ok.inj (ht.read.symm.trans hread)
    exact ht.dependencies

variable {visited' : List Path}

/-- Two scans of the same files agree on a file that was tracked before them. -/
theorem Scanned.agree_of_tracks (h : Scanned env w visited w') (h' : Scanned env w visited' w'')
    (hiff : ∀ p, p ∈ visited' ↔ p ∈ visited) (hp : w.Tracks p) :
    w''.files.get? p = w'.files.get? p ∧
      w''.graph.dependencies p = w'.graph.dependencies p := by
  by_cases hc : p ∈ visited ∧ Stale env w p
  · obtain ⟨text, hread, hrenewed⟩ := h.renewed p hc.1 hc.2
    obtain ⟨text', hread', hrenewed'⟩ := h'.renewed p ((hiff p).mpr hc.1) hc.2
    obtain rfl := Except.ok.inj (hread.symm.trans hread')
    obtain ⟨file, hfile⟩ := hp.exists_get?
    rw [hrenewed.file file hfile, hrenewed'.file file hfile, hrenewed.dependencies,
      hrenewed'.dependencies]
    exact ⟨rfl, rfl⟩
  · have hc' : ¬ (p ∈ visited' ∧ Stale env w p) := fun hc' => hc ⟨(hiff p).mp hc'.1, hc'.2⟩
    rw [h.changes.files p hp hc, h'.changes.files p hp hc', h.changes.dependencies p hp hc,
      h'.changes.dependencies p hp hc']
    exact ⟨rfl, rfl⟩

/-- Two scans agree on a file that both have taken in. -/
theorem Scanned.agree_of_taken (h : Scanned env w visited w') (h' : Scanned env w visited' w'')
    (hnew : w.files.contains p = false) (hp : w'.Tracks p) (hp' : w''.Tracks p) :
    w''.files.get? p = w'.files.get? p ∧
      w''.graph.dependencies p = w'.graph.dependencies p ∧
        find? p w''.declarationTimes = find? p w'.declarationTimes := by
  obtain ⟨⟨text, ht⟩, _⟩ := h.taken p hp hnew
  obtain ⟨⟨text', ht'⟩, _⟩ := h'.taken p hp' hnew
  obtain rfl := Except.ok.inj (ht.read.symm.trans ht'.read)
  rw [ht.file, ht'.file, ht.dependencies, ht'.dependencies, ht.time, ht'.time]
  exact ⟨rfl, rfl, rfl⟩

/-- Two scans of the same files agree on the times of files that were tracked before them, and on
those that belong to no file. -/
theorem Scanned.time_agree (h : Scanned env w visited w') (h' : Scanned env w visited' w'')
    (hiff : ∀ p, p ∈ visited' ↔ p ∈ visited)
    (hold : ∀ q, w'.Tracks q → (q == p) = true → w.Tracks q)
    (hold' : ∀ q, w''.Tracks q → (q == p) = true → w.Tracks q) :
    find? p w''.declarationTimes = find? p w'.declarationTimes := by
  by_cases hp : ∃ q ∈ visited, (q == p) = true
  · obtain ⟨q, hq, he⟩ := hp
    rw [← find?_congr he, ← find?_congr he, h.noted q hq, h'.noted q ((hiff q).mpr hq)]
  · have hout : ∀ q ∈ visited, (q == p) = false := fun q hq => by
      by_contra hb
      exact hp ⟨q, hq, Bool.not_eq_false _ ▸ hb⟩
    rw [h.times p hout hold, h'.times p (fun q hq => hout q ((hiff q).mp hq)) hold']

section Orders

variable (hvisited : ∀ p ∈ visited, w.Tracks p)

include hvisited

/-- Whatever lies behind a file that was read again is there. -/
theorem Scanned.tracks_of_behind (h : Scanned env w visited w') (hr : r ∈ visited)
    (hstale : Stale env w r) (hread : env.disk.read r = .ok text)
    (hp : Behind env w ⟨r, text⟩ p) : w'.Tracks p := by
  suffices (p = r ∨ w.files.contains p = false) ∧ w'.Tracks p from this.2
  -- on the way from the file, which only comes past files with the edges of their texts
  induction hp with
  | root => exact ⟨Or.inl rfl, h.tracks (hvisited r hr)⟩
  | @step q t d _ htext hd hnew ih =>
    obtain ⟨hq, hq'⟩ := ih
    have hread' : env.disk.read q = .ok t := by
      unfold SourceText.textIn at htext
      split at htext
      · rename_i he
        obtain rfl := hq'.normal.eq_of_beq (hvisited r hr).normal he
        exact hread.trans htext
      · exact htext
    have hnew' : q ∈ visited ∧ Stale env w q ∨ w.files.contains q = false := by
      refine hq.imp_left fun he => ?_
      rw [he]
      exact ⟨hr, hstale⟩
    have hedges := h.dependencies_eq hq' hread' hnew'
    exact ⟨Or.inr hnew, h.wellKept.tracks_of_refersTo ⟨d, hedges ▸ hd, rfl⟩⟩

theorem Scanned.tracks_of_tracks (h : Scanned env w visited w') (h' : Scanned env w visited' w'')
    (hsub : ∀ p ∈ visited', p ∈ visited) (hp : w''.Tracks p) : w'.Tracks p := by
  cases hold : w.files.contains p with
  | true => exact h.tracks ⟨hp.normal, hold⟩
  | false =>
    obtain ⟨_, r, hr, hstale, text, hread, hbehind⟩ := h'.taken p hp hold
    exact h.tracks_of_behind hvisited (hsub r hr) hstale hread hbehind

/-- **Two scans that visit the same files have the same outcome,** whatever the order. -/
theorem Scanned.unique (h : Scanned env w visited w') (h' : Scanned env w visited' w'')
    (hiff : ∀ p, p ∈ visited' ↔ p ∈ visited) : SameContents w' w'' := by
  have hvisited' : ∀ p ∈ visited', w.Tracks p := fun p hp => hvisited p ((hiff p).mp hp)
  have htracks : ∀ p, w''.Tracks p ↔ w'.Tracks p := fun p =>
    ⟨h.tracks_of_tracks hvisited h' fun p => (hiff p).mp,
      h'.tracks_of_tracks hvisited' h fun p => (hiff p).mpr⟩
  have hagree : ∀ p, w'.Tracks p → w''.files.get? p = w'.files.get? p ∧
      w''.graph.dependencies p = w'.graph.dependencies p := by
    intro p hp
    cases hold : w.files.contains p with
    | true => exact h.agree_of_tracks h' hiff ⟨hp.normal, hold⟩
    | false =>
      have := h.agree_of_taken h' hold hp ((htracks p).mpr hp)
      exact ⟨this.1, this.2.1⟩
  refine .of_tracks h.wellKept h'.wellKept htracks (fun p hp => (hagree p hp).1)
    (fun p hp => (hagree p hp).2) fun p => ?_
  by_cases hnew : ∃ q, w'.Tracks q ∧ (q == p) = true ∧ w.files.contains q = false
  · obtain ⟨q, hq, he, hnew⟩ := hnew
    rw [← find?_congr he, ← find?_congr he]
    exact (h.agree_of_taken h' hnew hq ((htracks q).mpr hq)).2.2
  · have hold : ∀ q, w'.Tracks q → (q == p) = true → w.Tracks q := fun q hq he => by
      refine ⟨hq.normal, ?_⟩
      by_contra hc
      exact hnew ⟨q, hq, he, Bool.not_eq_true _ ▸ hc⟩
    exact h.time_agree h' hiff hold fun q hq he => hold q ((htracks q).mp hq) he

end Orders

end Workspace

end TypeScriptEngine
