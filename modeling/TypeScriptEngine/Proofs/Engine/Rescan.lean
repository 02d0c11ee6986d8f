import TypeScriptEngine.Proofs.Engine.Invalidation
import TypeScriptEngine.Proofs.Engine.Tracking
import TypeScriptEngine.Proofs.Workspace.Renewal

/-! # Scans for changed declarations

`Visit` says what a scan does at one file if that goes well, and `Scan` what it does at several
files in order; `rescanFiles_cases` says that every scan is one of these, or stops at the first file
that cannot be read again.  After a scan that goes well each declaration file is up to date
(`Scan.upToDate`), so that the next one has nothing to do (`rescan_settles`).
-/

namespace TypeScriptEngine

open TypeScriptEngine.Graph TypeScriptEngine.Path DependencyGraph Workspace

namespace Instance

variable {allowed : Surroundings → Prop} {env : Surroundings} {i j k : Instance} {p : Path}
  {ps : List Path} {found : List Invalidation}

/-! ## One file -/

/-- What a scan does at a file, if it can go on, and what it tells of that. -/
inductive Visit (env : Surroundings) (i : Instance) (p : Path) :
    Instance → List Invalidation → Prop where
  /-- The file is not there, or its time is the one that is noted. -/
  | passed (h : ∀ time, env.disk.modified? p = some time →
      find? p i.workspace.declarationTimes = some time) : Visit env i p i []
  /-- No time was noted. -/
  | noted {time : Nat} (h : env.disk.modified? p = some time)
      (hnone : find? p i.workspace.declarationTimes = none) :
      Visit env i p (i.withWorkspace (i.workspace.recordTime env.disk p)) []
  /-- Another time was noted. -/
  | reread {text : String} (hstale : Stale env i.workspace p) (h : Reloads env i p text) :
      Visit env i p (i.reloaded env p text) [(i.reloaded env p text).invalidationOf p]

theorem rescanFiles_of_stale (h : Stale env i.workspace p) (ps : List Path) :
    rescanFiles env (p :: ps) i = (i.notifyChanged env p).andThen fun i found =>
      (rescanFiles env ps i).map (found.toList ++ ·) := by
  obtain ⟨time, noted, htime, hnoted, hne⟩ := h
  rw [rescanFiles]
  simp only [htime, hnoted, if_neg hne]

theorem map_nil_append (result : Except EngineError (List Invalidation)) :
    result.map ([] ++ ·) = result := by
  cases result <;> rfl

/-- A visit that goes well leaves the other files to the rest of the scan. -/
theorem Visit.rescanFiles_cons {vs : List Invalidation} (h : Visit env i p j vs)
    (hp : p.IsNormal) (ps : List Path) :
    (rescanFiles env (p :: ps) i).state = (rescanFiles env ps j).state ∧
      (rescanFiles env (p :: ps) i).result = (rescanFiles env ps j).result.map (vs ++ ·) := by
  cases h with
  | passed h =>
    have he : rescanFiles env (p :: ps) i = rescanFiles env ps i := by
      rw [rescanFiles]
      cases htime : env.disk.modified? p with
      | none => rfl
      | some time => simp only [h time htime, if_true]
    rw [he]
    exact ⟨rfl, (map_nil_append _).symm⟩
  | noted h hnone =>
    rw [rescanFiles]
    simp only [h, hnone, map_nil_append, and_self]
  | reread hstale h =>
    rw [← hp] at h
    obtain ⟨hstate, hresult⟩ := h.notifyChanged_eq
    rw [hp] at hstate hresult
    rw [rescanFiles_of_stale hstale, Outcome.state_andThen_of_ok hresult,
      Outcome.result_andThen_of_ok hresult, hstate]
    exact ⟨rfl, rfl⟩

variable (env) in
/-- **A file can be visited, or it is one whose time has changed and that cannot be read again.** -/
theorem visit_cases (hw : i.workspace.WellKept) (hp : p.IsNormal) :
    (∃ j vs, Visit env i p j vs) ∨
      Stale env i.workspace p ∧ ∃ e, (i.notifyChanged env p).result = .error e := by
  cases htime : env.disk.modified? p with
  | none => exact Or.inl ⟨_, _, .passed fun time h => by rw [htime] at h; contradiction⟩
  | some time =>
    cases hnoted : find? p i.workspace.declarationTimes with
    | none => exact Or.inl ⟨_, _, .noted htime hnoted⟩
    | some noted =>
      by_cases hne : noted = time
      · refine Or.inl ⟨_, _, .passed fun t ht => ?_⟩
        obtain rfl := Option.some.inj (htime.symm.trans ht)
        rw [hnoted, hne]
      · have hstale : Stale env i.workspace p := ⟨time, noted, htime, hnoted, hne⟩
        cases hresult : (i.notifyChanged env p).result with
        | error e => exact Or.inr ⟨hstale, e, rfl⟩
        | ok found =>
          have htracked : i.tracks p.normalize = true := by
            rw [hp]
            refine hw.times p ?_
            rw [hnoted]
            exact Option.some_ne_none noted
          obtain ⟨text, h⟩ := exists_reloads htracked hresult
          rw [hp] at h
          exact Or.inl ⟨_, _, .reread hstale h⟩

/-- **A visit takes the scan one file further.** -/
theorem Visit.scanned {w : Workspace} {visited : List Path} {vs : List Invalidation}
    (h : Visit env i p j vs) (hs : Scanned env w visited i.workspace)
    (hvisited : ∀ q ∈ visited, w.Tracks q) (hp : w.Tracks p) (hfirst : p ∉ visited) :
    Scanned env w (visited ++ [p]) j.workspace := by
  have hstale := hs.stale_iff hvisited hp hfirst
  have htime := hs.time_eq hvisited hp hfirst
  cases h with
  | passed h =>
    refine hs.pass hvisited hp hfirst ?_ hs.wellKept rfl rfl ?_ fun _ _ => rfl
    · rw [← hstale]
      rintro ⟨time, noted, ht, hnoted, hne⟩
      exact hne (Option.some.inj (hnoted.symm.trans (h time ht)))
    · rw [← htime, timeOf]
      split
      · cases ht : env.disk.modified? p with
        | none => rfl
        | some time => exact h time ht
      · rfl
  | noted h hnone =>
    have htracks := hs.tracks hp
    refine hs.pass hvisited hp hfirst ?_ (hs.wellKept.recordTime htracks.tracked)
      (recordTime_files ..) (recordTime_graph ..) ?_ fun q hq => find?_recordTime hq
    · rw [← hstale]
      rintro ⟨_, noted, _, hnoted, _⟩
      rw [hnone] at hnoted
      contradiction
    · rw [← htime]
      exact find?_recordTime_self i.workspace env.disk p
  | reread hstale' h =>
    have htracks := hs.tracks hp
    exact hs.reload hvisited hp hfirst (hstale.mp hstale') h.read
      (reloaded_of_refreshed hs.wellKept htracks h.refreshed)

/-! ## Several files -/

/-- A scan of several files at which it can always go on. -/
inductive Scan (env : Surroundings) :
    List Path → Instance → Instance → List Invalidation → Prop where
  | nil (i : Instance) : Scan env [] i i []
  | cons {i j k : Instance} {p : Path} {ps : List Path} {vs found : List Invalidation}
      (first : Visit env i p j vs) (rest : Scan env ps j k found) :
      Scan env (p :: ps) i k (vs ++ found)

theorem Scan.rescanFiles_eq (h : Scan env ps i j found) (hps : ∀ p ∈ ps, p.IsNormal) :
    (rescanFiles env ps i).state = j ∧ (rescanFiles env ps i).result = .ok found := by
  induction h with
  | nil i => exact ⟨rfl, rfl⟩
  | @cons i j k p ps vs found first rest ih =>
    obtain ⟨hstate, hresult⟩ := first.rescanFiles_cons (hps p (List.mem_cons_self ..)) ps
    obtain ⟨hstate', hresult'⟩ := ih fun q hq => hps q (List.mem_cons_of_mem _ hq)
    rw [hstate, hresult, hstate', hresult']
    exact ⟨rfl, rfl⟩

/-- The first visit of a scan that goes on from an earlier one. -/
theorem Visit.scanned_cons {w : Workspace} {visited : List Path} {vs : List Invalidation}
    (first : Visit env i p j vs) (hs : Scanned env w visited i.workspace)
    (hall : ∀ q ∈ visited ++ p :: ps, w.Tracks q) (hdistinct : (visited ++ p :: ps).Nodup) :
    Scanned env w (visited ++ [p]) j.workspace ∧
      (Stale env i.workspace p ↔ Stale env w p) := by
  have hvisited := fun q hq => hall q (List.mem_append_left _ hq)
  have hp := hall p (List.mem_append_right _ (List.mem_cons_self ..))
  have hout : p ∉ visited := fun hp =>
    (List.nodup_append.mp hdistinct).2.2 p hp p (List.mem_cons_self ..) rfl
  exact ⟨first.scanned hs hvisited hp hout, hs.stale_iff hvisited hp hout⟩

/-- **A scan of files takes one visit after the other.** -/
theorem Scan.scanned {w : Workspace} {visited : List Path} (h : Scan env ps i j found)
    (hs : Scanned env w visited i.workspace) (hall : ∀ q ∈ visited ++ ps, w.Tracks q)
    (hdistinct : (visited ++ ps).Nodup) : Scanned env w (visited ++ ps) j.workspace := by
  induction h generalizing visited with
  | nil i =>
    rw [List.append_nil]
    exact hs
  | cons first _ ih =>
    have hfirst := (first.scanned_cons hs hall hdistinct).1
    rw [List.append_cons] at hall hdistinct ⊢
    exact ih hfirst hall hdistinct

variable (env) in
/-- A scan goes well to its end, or stops at a file that cannot be read again. -/
theorem rescanFiles_cases (hw : i.workspace.WellKept) (hps : ∀ p ∈ ps, i.workspace.Tracks p) :
    (∃ found, Scan env ps i (rescanFiles env ps i).state found) ∨
    ∃ done p rest j lost e, ps = done ++ p :: rest ∧ Scan env done i j lost ∧
      Stale env j.workspace p ∧ (j.notifyChanged env p).result = .error e ∧
      (rescanFiles env ps i).result = .error e ∧
      (rescanFiles env ps i).state = (j.notifyChanged env p).state := by
  induction ps generalizing i with
  | nil => exact Or.inl ⟨[], .nil i⟩
  | cons p ps ih =>
    have hp := hps p (List.mem_cons_self ..)
    rcases visit_cases env hw hp.normal with ⟨j, vs, first⟩ | ⟨hstale, e, he⟩
    · have hs := first.scanned (scanned_nil hw) (fun _ h => by contradiction) hp
        fun h => by contradiction
      obtain ⟨hstate, hresult⟩ := first.rescanFiles_cons hp.normal ps
      rw [hstate, hresult]
      rcases ih hs.wellKept fun q hq => hs.tracks (hps q (List.mem_cons_of_mem _ hq)) with
        ⟨found, rest⟩ | ⟨done, q, rest, k, lost, e, rfl, hscan, hstale, he, hresult', hstate'⟩
      · exact Or.inl ⟨_, .cons first rest⟩
      · refine Or.inr ⟨p :: done, q, rest, k, _, e, rfl, .cons first hscan, hstale, he, ?_,
          hstate'⟩
        rw [hresult']
        rfl
    · refine Or.inr ⟨[], p, ps, i, [], e, rfl, .nil i, hstale, he, ?_, ?_⟩
      · rw [rescanFiles_of_stale hstale, Outcome.andThen_of_error he]
      · rw [rescanFiles_of_stale hstale, Outcome.andThen_of_error he]

/-! ## What a scan tells -/

/-- The file was read again in the scan, and its dependents are those that there were then: at a
moment when only files of the scan had changed. -/
structure Tells (env : Surroundings) (w : Workspace) (visited : List Path) (v : Invalidation) :
    Prop where
  mem : v.path ∈ visited
  stale : Stale env w v.path
  dependents : ∃ w' : Workspace, ChangesOnly (fun p => p ∈ visited ∧ Stale env w p) w w' ∧
    ∀ q, q ∈ v.dependents ↔ q.IsNormal ∧ q ≠ v.path ∧ w'.graph.DependsOn q v.path

/-- A visit tells of the file if it has read it again. -/
theorem Visit.mem_iff {vs : List Invalidation} (h : Visit env i p j vs) {v : Invalidation} :
    v ∈ vs ↔ Stale env i.workspace p ∧ v = j.invalidationOf p := by
  cases h with
  | passed h =>
    refine ⟨fun hv => by contradiction, fun ⟨hstale, _⟩ => ?_⟩
    obtain ⟨time, noted, ht, hnoted, hne⟩ := hstale
    exact absurd (Option.some.inj (hnoted.symm.trans (h time ht))) hne
  | noted _ hnone =>
    refine ⟨fun hv => by contradiction, fun ⟨hstale, _⟩ => ?_⟩
    obtain ⟨_, noted, _, hnoted, _⟩ := hstale
    rw [hnone] at hnoted
    contradiction
  | reread hstale h =>
    rw [List.mem_singleton]
    exact ⟨fun hv => ⟨hstale, hv⟩, fun hv => hv.2⟩

section Told

variable {w : Workspace} {visited : List Path} (h : Scan env ps i j found)
  (hs : Scanned env w visited i.workspace) (hall : ∀ q ∈ visited ++ ps, w.Tracks q)
  (hdistinct : (visited ++ ps).Nodup)

include h hs hall hdistinct

theorem Scan.tells : ∀ v ∈ found, Tells env w (visited ++ ps) v := by
  induction h generalizing visited with
  | nil i => exact fun _ h => by contradiction
  | @cons i j k p ps vs found first rest ih =>
    obtain ⟨hfirst, hstale⟩ := first.scanned_cons hs hall hdistinct
    have hp := hall p (List.mem_append_right _ (List.mem_cons_self ..))
    intro v hv
    rcases List.mem_append.mp hv with hv | hv
    · obtain ⟨hstale', rfl⟩ := first.mem_iff.mp hv
      refine ⟨List.mem_append_right _ (List.mem_cons_self ..), hstale.mp hstale', j.workspace,
        hfirst.changes.mono fun q hq => ⟨?_, hq.2⟩,
        fun q => mem_otherDependents_iff hfirst.wellKept hp.normal⟩
      rw [List.append_cons]
      exact List.mem_append_left _ hq.1
    · rw [List.append_cons] at hall hdistinct ⊢
      exact ih hfirst hall hdistinct v hv

/-- **Every file that was read again is told of,** with the version that it has in the end. -/
theorem Scan.exists_told {p : Path} (hp : p ∈ ps) (hstale : Stale env w p) :
    ∃ v ∈ found, v.path = p ∧ v.version = j.versionOf p := by
  induction h generalizing visited with
  | nil i => contradiction
  | @cons i j k q ps vs found first rest ih =>
    obtain ⟨hfirst, hiff⟩ := first.scanned_cons hs hall hdistinct
    rcases List.mem_cons.mp hp with rfl | hp
    · refine ⟨j.invalidationOf p, ?_, rfl, ?_⟩
      · exact List.mem_append_left _ (first.mem_iff.mpr ⟨hiff.mpr hstale, rfl⟩)
      · -- the rest of the scan does not come back to the file
        obtain ⟨hout, hdistinct⟩ := List.nodup_cons.mp (List.nodup_append.mp hdistinct).2.1
        have htracks : ∀ r ∈ p :: ps, j.workspace.Tracks r :=
          fun r hr => hfirst.tracks (hall r (List.mem_append_right _ hr))
        have hrest := rest.scanned (scanned_nil hfirst.wellKept)
          (fun r hr => htracks r (List.mem_cons_of_mem _ hr)) hdistinct
        have hkept := hrest.changes.files p (htracks p (List.mem_cons_self ..))
          fun hc => hout hc.1
        show j.versionOf p = k.versionOf p
        unfold versionOf
        rw [hkept]
    · rw [List.append_cons] at hall hdistinct
      obtain ⟨v, hv, hpath⟩ := ih hfirst hall hdistinct hp
      exact ⟨v, List.mem_append_right _ hv, hpath⟩

end Told

/-! ## Whole scans -/

/-- The declaration files that an instance tracks. -/
def declared (i : Instance) : List Path := i.workspace.files.declarations.map TrackedFile.path

theorem tracks_of_mem_declared (hw : i.workspace.WellKept) (hp : p ∈ i.declared) :
    i.workspace.Tracks p := by
  obtain ⟨file, hfile, rfl⟩ := List.mem_map.mp hp
  exact hw.tracks_of_mem (List.mem_filter.mp hfile).1

theorem nodup_declared (hw : i.workspace.WellKept) : i.declared.Nodup :=
  hw.files.distinct.sublist (List.filter_sublist.map _)

theorem rescan_eq (i : Instance) (env : Surroundings) :
    i.rescan env = rescanFiles env i.declared i := rfl

/-- Whatever its order, a scan of the declaration files visits tracked files. -/
theorem tracks_of_perm_declared (hw : i.workspace.WellKept) (hps : ps.Perm i.declared) :
    ∀ p ∈ ps, i.workspace.Tracks p :=
  fun _ hp => tracks_of_mem_declared hw (hps.mem_iff.mp hp)

theorem nodup_of_perm_declared (hw : i.workspace.WellKept) (hps : ps.Perm i.declared) :
    ps.Nodup :=
  hps.nodup_iff.mpr (nodup_declared hw)

/-- What has changed was read again in the scan, and is told of, however its path is spelled. -/
theorem Scan.told_of_changed (h : Scan env ps i j found) (hw : i.workspace.WellKept)
    (hps : ∀ q ∈ ps, i.workspace.Tracks q) (hdistinct : ps.Nodup) (hp : i.tracks p = true)
    (hchanged : j.workspace.files.get? p ≠ i.workspace.files.get? p) :
    ∃ v ∈ found, v.path = p.normalize ∧ v.version = j.versionOf p := by
  have hs : Scanned env i.workspace [] i.workspace := scanned_nil hw
  have hscanned := h.scanned hs hps hdistinct
  have htracks : i.workspace.Tracks p.normalize :=
    ⟨isNormal_normalize p, (FileStore.contains_normalize _ p).trans hp⟩
  unfold versionOf
  rw [← FileStore.get?_normalize, ← FileStore.get?_normalize i.workspace.files] at hchanged
  rw [← FileStore.get?_normalize]
  by_cases hc : p.normalize ∈ ps ∧ Stale env i.workspace p.normalize
  · exact h.exists_told hs hps hdistinct hc.1 hc.2
  · exact absurd (hscanned.changes.files _ htracks hc) hchanged

/-- **A scan reads files again up to the first that cannot be read,** in whatever order it visits the
declaration files, and a change of any of them is among what there is to tell of these files.  If the
scan goes well that is its result.  If it stops at a file, what it has done to the files before stays
done, and it tells nothing of it. -/
theorem rescan_changes (h : Reachable allowed i) (env : Surroundings) {ps : List Path}
    (hps : ps.Perm i.declared) :
    ∃ done told, (rescanFiles env done i).result = .ok told ∧
      (∀ p, i.tracks p = true →
        (rescanFiles env ps i).state.workspace.files.get? p ≠ i.workspace.files.get? p →
          ∃ v ∈ told, v.path = p.normalize ∧
            v.version = (rescanFiles env ps i).state.versionOf p) ∧
      (done = ps ∧ (rescanFiles env ps i).result = .ok told ∨
        ∃ p rest e, ps = done ++ p :: rest ∧
          Stale env (rescanFiles env done i).state.workspace p ∧
          ((rescanFiles env done i).state.notifyChanged env p).result = .error e ∧
          (rescanFiles env ps i).result = .error e ∧
          (rescanFiles env done i).state.workspace.Same
            (rescanFiles env ps i).state.workspace) := by
  have hw := h.wellKept
  have hall := tracks_of_perm_declared hw hps
  have hdistinct := nodup_of_perm_declared hw hps
  rcases rescanFiles_cases env hw hall with
    ⟨found, hscan⟩ | ⟨done, p, rest, j, lost, e, heq, hscan, hstale, he, hresult, hstate⟩
  · obtain ⟨_, hok⟩ := hscan.rescanFiles_eq fun p hp => (hall p hp).normal
    exact ⟨ps, found, hok, fun p => hscan.told_of_changed hw hall hdistinct, Or.inl ⟨rfl, hok⟩⟩
  · rw [heq] at hall hdistinct
    have hall := fun q hq => hall q (List.mem_append_left _ hq)
    have hdistinct := (List.nodup_append.mp hdistinct).1
    have hscanned := hscan.scanned (scanned_nil hw) hall hdistinct
    obtain ⟨hdone, hok⟩ := hscan.rescanFiles_eq fun q hq => (hall q hq).normal
    -- the file that cannot be read again takes nothing back of what was done before
    have hsame : j.workspace.Same (rescanFiles env ps i).state.workspace := by
      rw [hstate]
      exact same_of_notifyChanged_error hscanned.wellKept he
    refine ⟨done, lost, hok, fun q hq hne => ?_,
      Or.inr ⟨p, rest, e, heq, hdone ▸ hstale, hdone ▸ he, hresult, hdone ▸ hsame⟩⟩
    rw [hsame.files] at hne
    unfold versionOf
    rw [hsame.files]
    exact hscan.told_of_changed hw hall hdistinct hq hne

/-- The tree of `declaredProject` after the declarations have come to declare a name, and the others
have been written too, with some text or one that cannot be read. -/
def rewrittenProject (others : Option String) : Surroundings where
  disk := ⟨[], [(["p"], .directory 0), (["p", "q"], .directory 0),
    (["p", "q", "g.d.ts"], .file (some "declare let x: number;") 1),
    (["p", "h.d.ts"], .file others 1)]⟩
  resolve := (declaredProject "").resolve

/-- A scan that cannot read the other declarations has read the first ones before. -/
theorem rescan_declaredBuild {i : Instance} (hi : declaredBuild = .ok i) :
    (i.rescan (rewrittenProject none)).result.isOk = false ∧
      i.tracks ⟨"/p/q/g.d.ts"⟩ = true ∧ i.versionOf ⟨"/p/q/g.d.ts"⟩ = 0 ∧
      (i.rescan (rewrittenProject none)).state.versionOf ⟨"/p/q/g.d.ts"⟩ = 1 ∧
      (((i.rescan (rewrittenProject none)).state.rescan
        (rewrittenProject (some ""))).result.toOption.any fun found =>
          found.all fun v => !(v.path == ⟨"/p/q/g.d.ts"⟩)) = true := by
  have hchecks : (declaredBuild.toOption.any fun i =>
      let x := i.rescan (rewrittenProject none)
      !x.result.isOk && (i.tracks ⟨"/p/q/g.d.ts"⟩ && (i.versionOf ⟨"/p/q/g.d.ts"⟩ == 0 &&
        (x.state.versionOf ⟨"/p/q/g.d.ts"⟩ == 1 &&
        (x.state.rescan (rewrittenProject (some ""))).result.toOption.any fun found =>
          found.all fun v => !(v.path == ⟨"/p/q/g.d.ts"⟩))))) = true := by decide +kernel
  rw [hi] at hchecks
  simpa only [Except.toOption, Option.any_some, Bool.and_eq_true, Bool.not_eq_true', beq_iff_eq]
    using hchecks

/-- What that scan has to tell of the first declarations is not its result. -/
theorem rescan_changes_declaredBuild :
    ∃ i, declaredBuild = .ok i ∧ (i.rescan (rewrittenProject none)).result.isOk = false ∧
      ∃ done told, (rescanFiles (rewrittenProject none) done i).result = .ok told ∧
        ∃ v ∈ told, v.path = ⟨"/p/q/g.d.ts"⟩ ∧ v.version = 1 := by
  obtain ⟨i, hi, h, _⟩ := reachable_declaredBuild (fun _ => True) trivial
  obtain ⟨hfails, htracks, hbefore, hafter, _⟩ := rescan_declaredBuild hi
  rw [rescan_eq] at hafter
  obtain ⟨done, told, hdone, htold, _⟩ :=
    rescan_changes h (rewrittenProject none) (List.Perm.refl i.declared)
  obtain ⟨v, hv, hpath, hversion⟩ := htold ⟨"/p/q/g.d.ts"⟩ htracks fun he => by
    unfold versionOf at hbefore hafter
    rw [he, hbefore] at hafter
    contradiction
  exact ⟨i, hi, hfails, done, told, hdone, v, hv, hpath, hversion.trans hafter⟩

/-- **A scan that fails can swallow a reload.**  The first declarations have been read again, and
neither this scan nor the next one, which can read everything, tells of it. -/
theorem rescan_swallows_reload :
    ∃ i, declaredBuild = .ok i ∧ Reachable (fun _ => True) i ∧
      (i.rescan (rewrittenProject none)).result.isOk = false ∧
      i.versionOf ⟨"/p/q/g.d.ts"⟩ = 0 ∧
      (i.rescan (rewrittenProject none)).state.versionOf ⟨"/p/q/g.d.ts"⟩ = 1 ∧
      ∃ found, ((i.rescan (rewrittenProject none)).state.rescan
          (rewrittenProject (some ""))).result = .ok found ∧
        ∀ v ∈ found, v.path ≠ ⟨"/p/q/g.d.ts"⟩ := by
  obtain ⟨i, hi, h, _⟩ := reachable_declaredBuild (fun _ => True) trivial
  obtain ⟨hfails, _, hbefore, hafter, hnext⟩ := rescan_declaredBuild hi
  refine ⟨i, hi, h, hfails, hbefore, hafter, ?_⟩
  cases hresult : ((i.rescan (rewrittenProject none)).state.rescan
      (rewrittenProject (some ""))).result with
  | error e =>
    rw [hresult] at hnext
    contradiction
  | ok found =>
    rw [hresult] at hnext
    refine ⟨found, rfl, fun v hv he => ?_⟩
    have := List.all_eq_true.mp hnext v hv
    rw [he, BEq.rfl] at this
    contradiction

/-! ## The order of a scan -/

/-- A file was read again, or listed as a dependent of one that was. -/
def Concerned (found : List Invalidation) (p : Path) : Prop :=
  ∃ v ∈ found, v.path = p ∨ p ∈ v.dependents

/-- **Which files a scan concerns can be read off the graph before it:** those that are read again,
and those that depended on one of these.  Each list of dependents is of the graph at its moment; but
on the way to a file that has changed since, an earlier one lies that is listed too. -/
theorem Scan.concerned_iff (h : Scan env ps i j found) (hw : i.workspace.WellKept)
    (hps : ∀ q ∈ ps, i.workspace.Tracks q) (hdistinct : ps.Nodup) (hp : i.workspace.Tracks p) :
    Concerned found p ↔ (p ∈ ps ∧ Stale env i.workspace p) ∨
      ∃ r, (r ∈ ps ∧ Stale env i.workspace r) ∧ i.workspace.graph.DependsOn p r := by
  have hs : Scanned env i.workspace [] i.workspace := scanned_nil hw
  have htells : ∀ v ∈ found, Tells env i.workspace ps v := h.tells hs hps hdistinct
  by_cases hc : p ∈ ps ∧ Stale env i.workspace p
  · obtain ⟨v, hv, hpath, _⟩ := h.exists_told hs hps hdistinct hc.1 hc.2
    exact ⟨fun _ => Or.inl hc, fun _ => ⟨v, hv, Or.inl hpath⟩⟩
  constructor
  · rintro ⟨v, hv, hconcerned⟩
    have hv := htells v hv
    rcases hconcerned with rfl | hmem
    · exact absurd ⟨hv.mem, hv.stale⟩ hc
    · obtain ⟨w', hchanges, hdependents⟩ := hv.dependents
      have hpath := ((hdependents p).mp hmem).2.2
      obtain ⟨r, hr, hall⟩ := exists_first_changed hw hp hc hchanges ⟨hv.mem, hv.stale⟩ hpath
      exact Or.inr ⟨r, hr, hall _ (.refl _ _)⟩
  · rintro (hc' | ⟨r, hr, hpath⟩)
    · exact absurd hc' hc
    · obtain ⟨r, hr, hall⟩ := exists_first_changed hw hp hc
        (.refl (fun q => q ∈ ps ∧ Stale env i.workspace q) _) hr hpath
      obtain ⟨v, hv, rfl, _⟩ := h.exists_told hs hps hdistinct hr.1 hr.2
      obtain ⟨w', hchanges, hdependents⟩ := (htells v hv).dependents
      refine ⟨v, hv, Or.inr ((hdependents p).mpr ⟨hp.normal, ?_, hall w' hchanges⟩)⟩
      rintro rfl
      exact hc hr

/-- A scan with a result has visited all its files. -/
theorem scan_of_ok (hw : i.workspace.WellKept) (hps : ∀ p ∈ ps, i.workspace.Tracks p)
    (h : (rescanFiles env ps i).result = .ok found) :
    Scan env ps i (rescanFiles env ps i).state found := by
  rcases rescanFiles_cases env hw hps with
    ⟨told, hscan⟩ | ⟨_, _, _, _, _, e, _, _, _, _, hresult, _⟩
  · have hresult := (hscan.rescanFiles_eq fun p hp => (hps p hp).normal).2
    obtain rfl := Except.ok.inj (h.symm.trans hresult)
    exact hscan
  · rw [h] at hresult
    contradiction

/-- **The order of a scan makes no difference.**  In whatever orders the declaration files are
visited, if both scans go well then they leave the same files, edges and times, and they concern the
same ones of the files that were tracked before. -/
theorem rescan_order_irrelevant (h : Reachable allowed i) (env : Surroundings) {ps qs : List Path}
    (hps : ps.Perm i.declared) (hqs : qs.Perm i.declared) {found found' : List Invalidation}
    (hok : (rescanFiles env ps i).result = .ok found)
    (hok' : (rescanFiles env qs i).result = .ok found') :
    SameContents (rescanFiles env ps i).state.workspace (rescanFiles env qs i).state.workspace ∧
      ∀ file ∈ i.workspace.files.files,
        Concerned found' file.path ↔ Concerned found file.path := by
  have hw := h.wellKept
  have htracks := tracks_of_perm_declared hw hps
  have htracks' := tracks_of_perm_declared hw hqs
  have hdistinct := nodup_of_perm_declared hw hps
  have hdistinct' := nodup_of_perm_declared hw hqs
  have hmem : ∀ p, p ∈ qs ↔ p ∈ ps := fun p => (hqs.trans hps.symm).mem_iff
  have hscan := scan_of_ok hw htracks hok
  have hscan' := scan_of_ok hw htracks' hok'
  refine ⟨?_, fun file hfile => ?_⟩
  · exact (hscan.scanned (scanned_nil hw) htracks hdistinct).unique htracks
      (hscan'.scanned (scanned_nil hw) htracks' hdistinct') hmem
  · have hp := hw.tracks_of_mem hfile
    rw [hscan.concerned_iff hw htracks hdistinct hp, hscan'.concerned_iff hw htracks' hdistinct' hp]
    simp only [hmem]

/-- After both declaration files were written, they can be read in either order. -/
theorem rescan_order_irrelevant_declaredBuild :
    ∃ i, declaredBuild = .ok i ∧ i.declared.length = 2 ∧
      (rescanFiles (rewrittenProject (some "")) i.declared i).result.isOk = true ∧
      (rescanFiles (rewrittenProject (some "")) i.declared.reverse i).result.isOk = true ∧
      SameContents (rescanFiles (rewrittenProject (some "")) i.declared i).state.workspace
        (rescanFiles (rewrittenProject (some "")) i.declared.reverse i).state.workspace := by
  obtain ⟨i, hi, h, _⟩ := reachable_declaredBuild (fun _ => True) trivial
  have hchecks : (declaredBuild.toOption.any fun i =>
      i.declared.length == 2 &&
        ((rescanFiles (rewrittenProject (some "")) i.declared i).result.isOk &&
        (rescanFiles (rewrittenProject (some "")) i.declared.reverse i).result.isOk)) = true := by
    decide +kernel
  rw [hi] at hchecks
  simp only [Except.toOption, Option.any_some, Bool.and_eq_true, beq_iff_eq] at hchecks
  obtain ⟨hlength, hok, hok'⟩ := hchecks
  refine ⟨i, hi, hlength, hok, hok', ?_⟩
  cases hresult : (rescanFiles (rewrittenProject (some "")) i.declared i).result with
  | error e =>
    rw [hresult] at hok
    contradiction
  | ok found =>
    cases hresult' : (rescanFiles (rewrittenProject (some "")) i.declared.reverse i).result with
    | error e =>
      rw [hresult'] at hok'
      contradiction
    | ok found' =>
      exact (rescan_order_irrelevant h _ (List.Perm.refl _) (List.reverse_perm _) hresult
        hresult').1

/-! ## A second scan -/

/-- The time of the file tree, if it has one, is the one that is noted of a file. -/
def UpToDate (disk : Disk) (w : Workspace) (p : Path) : Prop :=
  ∀ time, disk.modified? p = some time → find? p w.declarationTimes = some time

/-- A scan passes over files that are up to date, and asks nothing of its surroundings. -/
theorem rescanFiles_of_upToDate (h : ∀ p ∈ ps, UpToDate env.disk i.workspace p) :
    rescanFiles env ps i = .pure i [] := by
  induction ps with
  | nil => rfl
  | cons p ps ih =>
    have hrest := ih fun q hq => h q (List.mem_cons_of_mem _ hq)
    rw [rescanFiles]
    cases htime : env.disk.modified? p with
    | none => exact hrest
    | some time => simp only [h p (List.mem_cons_self ..) time htime, if_true, hrest]

theorem isDeclaration_of_mem_declared (hw : i.workspace.WellKept) (hp : p ∈ i.declared) :
    p.isDeclaration = true := by
  obtain ⟨file, hfile, rfl⟩ := List.mem_map.mp hp
  obtain ⟨hmem, hdeclared⟩ := List.mem_filter.mp hfile
  exact (hw.files.declared file hmem).symm.trans hdeclared

theorem mem_declared (hw : i.workspace.WellKept) (hp : i.workspace.Tracks p)
    (hdeclaration : p.isDeclaration = true) : p ∈ i.declared := by
  obtain ⟨file, hmem, rfl⟩ := List.mem_map.mp ((hw.files.contains_iff_mem hp.normal).mp hp.tracked)
  refine List.mem_map_of_mem (List.mem_filter.mpr ⟨hmem, ?_⟩)
  exact (hw.files.declared file hmem).trans hdeclaration

/-- **After a scan of all declaration files each of them is up to date.**  Those that were there have
been visited, and the time of one that a reload has taken in was noted then. -/
theorem Scan.upToDate (h : Scan env ps i j found) (hw : i.workspace.WellKept)
    (hps : ps.Perm i.declared) (hp : p ∈ j.declared) : UpToDate env.disk j.workspace p := by
  have hscanned := h.scanned (scanned_nil hw) (tracks_of_perm_declared hw hps)
    (nodup_of_perm_declared hw hps)
  have htracks := tracks_of_mem_declared hscanned.wellKept hp
  have hdeclaration := isDeclaration_of_mem_declared hscanned.wellKept hp
  intro time htime
  have htimeOf : timeOf env.disk p = some time := by rw [timeOf, if_pos hdeclaration, htime]
  cases hold : i.workspace.files.contains p with
  | true =>
    have hvisited : p ∈ ps := hps.mem_iff.mpr (mem_declared hw ⟨htracks.normal, hold⟩ hdeclaration)
    rw [hscanned.noted p hvisited, htimeOf, Option.some_or]
  | false =>
    obtain ⟨⟨text, htaken⟩, -⟩ := hscanned.taken p htracks hold
    rw [htaken.time, htimeOf]

/-- **A scan that goes well leaves nothing for the next one.**  In whatever orders the two visit the
declaration files, and whatever the resolver answers the second time: if the file tree is the same
then the second scan asks nothing, tells nothing and leaves the instance as it is, although there may
be declaration files that the first one has taken in. -/
theorem rescan_settles (h : Reachable allowed i) {env env' : Surroundings}
    (hdisk : env'.disk = env.disk) {ps qs : List Path} (hps : ps.Perm i.declared)
    {found : List Invalidation} (hok : (rescanFiles env ps i).result = .ok found)
    (hqs : qs.Perm (rescanFiles env ps i).state.declared) :
    rescanFiles env' qs (rescanFiles env ps i).state = .pure (rescanFiles env ps i).state [] := by
  have hw := h.wellKept
  have hscan := scan_of_ok hw (tracks_of_perm_declared hw hps) hok
  refine rescanFiles_of_upToDate fun p hp => ?_
  rw [hdisk]
  exact hscan.upToDate hw hps (hqs.mem_iff.mp hp)

/-- The tree of `declaredProject` after the declarations have come to refer to new ones. -/
def grownProject : Surroundings where
  disk := ⟨[], [(["p"], .directory 0), (["p", "q"], .directory 0),
    (["p", "q", "g.d.ts"], .file (some "import './n';") 1), (["p", "h.d.ts"], .file (some "") 0),
    (["p", "q", "n.d.ts"], .file (some "") 2)]⟩
  resolve _ _ := .ok ⟨"/p/q/n.d.ts"⟩

/-- The same tree, in which no reference leads anywhere any more. -/
def grownDeadEnds : Surroundings := { grownProject with resolve := deadEnds.resolve }

/-- A scan that reads the declarations again takes in the new ones, and the next one has nothing to
do. -/
theorem rescan_settles_declaredBuild :
    ∃ i, declaredBuild = .ok i ∧
      ((i.rescan grownProject).result.toOption.any fun found => found.length == 1) = true ∧
      i.tracks ⟨"/p/q/n.d.ts"⟩ = false ∧
      (i.rescan grownProject).state.tracks ⟨"/p/q/n.d.ts"⟩ = true ∧
      (i.rescan grownProject).state.rescan grownDeadEnds =
        .pure (i.rescan grownProject).state [] := by
  obtain ⟨i, hi, h, _⟩ := reachable_declaredBuild (fun _ => True) trivial
  have hchecks : (declaredBuild.toOption.any fun i =>
      ((i.rescan grownProject).result.toOption.any fun found => found.length == 1) &&
        (!i.tracks ⟨"/p/q/n.d.ts"⟩ &&
          (i.rescan grownProject).state.tracks ⟨"/p/q/n.d.ts"⟩)) = true := by decide +kernel
  rw [hi] at hchecks
  simp only [Except.toOption, Option.any_some, Bool.and_eq_true, Bool.not_eq_true'] at hchecks
  obtain ⟨hfound, hbefore, hafter⟩ := hchecks
  refine ⟨i, hi, hfound, hbefore, hafter, ?_⟩
  have hdisk : grownDeadEnds.disk = grownProject.disk := rfl
  cases hresult : (i.rescan grownProject).result with
  | error e =>
    rw [hresult] at hfound
    contradiction
  | ok found =>
    exact rescan_settles h hdisk (List.Perm.refl i.declared) hresult (List.Perm.refl _)

end Instance

end TypeScriptEngine
