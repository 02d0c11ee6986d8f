import TypeScriptEngine.Proofs.Path.Canonical
import TypeScriptEngine.Proofs.Path.Extension
import TypeScriptEngine.Proofs.Workspace.Operations
import TypeScriptEngine.Resolution.Module

/-! # Which targets are taken in

A load follows a reference just if the normal form of what the resolver answers has the extension of
a source.  This goes for edges and for files, and a load that fails has read no other file either
(`sources_followed`).  By this test declarations of modules are passed over, though the store counts
them among the declaration files, and what stands for a built-in module is passed over only if it is
not called like a source (`targets_misjudged`).
-/

namespace TypeScriptEngine

open TypeScriptEngine.Graph TypeScriptEngine.Path Resolution

/-! ## Names and extensions of normal paths -/

namespace Path

/-- A walk finds no names but those that it passes. -/
theorem name_mem_foldl_step {segments walked : List Segment} {text : String}
    (h : .name text ∈ segments.foldl step walked) :
    .name text ∈ walked ∨ .name text ∈ segments := by
  induction segments generalizing walked with
  | nil => exact .inl h
  | cons s segments ih =>
    rcases ih h with hstep | htail
    · have hcases : .name text ∈ walked ∨ .name text = s := by
        unfold step at hstep
        split at hstep
        · simp at hstep
        · exact .inl hstep
        · exact .inl (List.mem_cons_of_mem _ hstep)
        · exact .inl hstep
        · simpa using hstep
        · exact (List.mem_cons.mp hstep).symm
      exact hcases.imp_right fun he => List.mem_cons.mpr (.inl he)
    · exact .inr (List.mem_cons_of_mem _ htail)

theorem fileName?_eq_some_iff {p : Path} {text : String} :
    p.fileName? = some text ↔ p.segments.getLast? = some (.name text) := by
  rw [fileName?, Option.bind_eq_some_iff]
  constructor
  · rintro ⟨s, hs, hname⟩
    cases s with
    | name text' =>
      obtain rfl := Option.some.inj hname
      exact hs
    | root | here | up => contradiction
  · exact fun h => ⟨_, h, rfl⟩

/-- The file name of a normal form is a name of the path. -/
theorem name_mem_of_fileName?_normalize {p : Path} {text : String}
    (h : p.normalize.fileName? = some text) : .name text ∈ p.segments := by
  have hmem := List.mem_of_getLast? (fileName?_eq_some_iff.mp h)
  rw [segments_normalize] at hmem
  split at hmem
  · simp at hmem
  · exact (name_mem_foldl_step (List.mem_reverse.mp hmem)).resolve_left nofun

/-- A name at the end of a path stays its file name. -/
theorem fileName?_normalize {p : Path} {segments : List Segment} {text : String}
    (h : p.segments = segments ++ [.name text]) : p.normalize.fileName? = some text := by
  have hnormal : normalSegments p.segments = (segments.foldl step []).reverse ++ [.name text] := by
    rw [normalSegments, h, List.foldl_append, List.foldl_cons, step_name]
    simp
  rw [fileName?_eq_some_iff, segments_normalize, hnormal, if_neg (by simp), List.getLast?_concat]

/-- A name is a part of the text between slashes. -/
theorem toList_mem_splitOn {p : Path} {text : String} (h : .name text ∈ p.segments) :
    text.toList ∈ Text.splitOn '/' p.text.toList := by
  rw [segments, segmentsOf_eq] at h
  rcases List.mem_append.mp h with h | h
  · rcases headOf_cases p.text.toList with hhead | hhead | hhead <;> simp [hhead] at h
  · obtain ⟨part, hpart, hof⟩ := List.mem_filterMap.mp h
    unfold Segment.ofPart? at hof
    split at hof
    · contradiction
    split at hof
    · cases Option.some.inj hof
    · obtain rfl := Segment.name.inj (Option.some.inj hof)
      rwa [String.toList_ofList]

end Path

/-- Whether a name has the extension of a source. -/
def isSourceName (name : List Char) : Bool :=
  (splitName name).2 == some "ts".toList || (splitName name).2 == some "tsx".toList

theorem isTracked_eq (p : Path) :
    isTracked p = (p.fileName?).any fun name => isSourceName name.toList := by
  unfold isTracked extension? isSourceName
  cases p.fileName? with
  | none => rfl
  | some name =>
    rw [Option.bind_some, Option.any_some]
    cases (splitName name.toList).2 with
    | none => rfl
    | some extension =>
      have heq : ∀ text : String, (String.ofList extension == text) =
          (some extension == some text.toList) := fun text => by
        rw [Bool.eq_iff_iff, beq_iff_eq, beq_iff_eq, Option.some.injEq]
        exact ⟨fun h => h ▸ String.toList_ofList.symm, fun h => h ▸ String.ofList_toList⟩
      simp only [Option.map_some, heq]

/-- What ends with a dot and an extension, and has something before it, has that extension. -/
theorem splitName_of_endsWith {name before extension : String}
    (h : name.endsWith (before ++ "." ++ extension) = true) (hbefore : before.toList ≠ [])
    (hdot : '.' ∉ extension.toList) :
    (splitName name.toList).2 = some extension.toList := by
  obtain ⟨front, hfront⟩ := Text.endsWith_iff.mp h
  have hname : name.toList = (front ++ before.toList) ++ '.' :: extension.toList := by
    rw [← hfront]
    simp
  rw [hname, splitName_append (by simp [hbefore]) hdot]

/-- Whether a name is that of the declarations of a module. -/
def isModuleDeclarationName (name : String) : Bool :=
  name.endsWith ".d.mts" || name.endsWith ".d.cts"

/-- **The declaration files that are no sources** are those of modules. -/
theorem isDeclaration_untracked_iff (p : Path) :
    p.isDeclaration = true ∧ isTracked p = false ↔
      (p.fileName?).any isModuleDeclarationName = true := by
  rw [isTracked_eq, isDeclaration]
  cases p.fileName? with
  | none => simp
  | some name =>
    have hsource : ∀ extension : String, name.endsWith (".d" ++ "." ++ extension) = true →
        '.' ∉ extension.toList → (splitName name.toList).2 = some extension.toList :=
      fun _ h hdot => splitName_of_endsWith h (by decide) hdot
    simp only [Option.any_some]
    rw [isDeclarationName, isModuleDeclarationName, isSourceName]
    cases hts : name.endsWith ".d.ts" with
    | true =>
      have hm := endsWith_eq_false hts (a := ".d.mts") (by decide) (by decide)
      have hc := endsWith_eq_false hts (a := ".d.cts") (by decide) (by decide)
      rw [hsource "ts" hts (by decide), hm, hc]
      decide
    | false =>
      cases hm : name.endsWith ".d.mts" with
      | true =>
        rw [hsource "mts" hm (by decide)]
        simp
      | false =>
        cases hc : name.endsWith ".d.cts" with
        | true =>
          rw [hsource "cts" hc (by decide)]
          simp
        | false => simp

/-! ## What stands for a built-in module -/

/-- **What stands for a built-in module** is passed over if no part of it is called like a source,
and is taken for one if its last part is. -/
theorem isTracked_builtin (name : String) :
    ((∀ part ∈ Text.splitOn '/' (builtinScheme ++ name).toList, isSourceName part = false) →
      isTracked (⟨builtinScheme ++ name⟩ : Path).normalize = false) ∧
    ∀ front last : String, name = front ++ "/" ++ last → '/' ∉ last.toList →
      isSourceName last.toList = true →
      isTracked (⟨builtinScheme ++ name⟩ : Path).normalize = true := by
  refine ⟨fun hparts => ?_, ?_⟩
  · rw [isTracked_eq]
    cases hname : (⟨builtinScheme ++ name⟩ : Path).normalize.fileName? with
    | none => rfl
    | some text => exact hparts _ (toList_mem_splitOn (name_mem_of_fileName?_normalize hname))
  · rintro front last rfl hslash hlast
    have hplain : (Segment.name last).Plain := by
      refine ⟨?_, ?_, ?_, hslash⟩ <;> intro h <;> rw [h] at hlast <;> contradiction
    have hsegments : (⟨builtinScheme ++ (front ++ "/" ++ last)⟩ : Path).segments =
        segmentsOf (builtinScheme ++ front).toList ++ [.name last] := by
      have htext : (builtinScheme ++ (front ++ "/" ++ last)).toList =
          (builtinScheme ++ front).toList ++ '/' :: last.toList := by simp
      have hparts : partsOf last.toList = [.name last] := by
        have hof : Segment.ofPart? last.toList = some (.name last) := Segment.ofPart?_text hplain
        rw [partsOf, Text.splitOn_of_not_mem hslash, List.filterMap_cons_some hof]
        rfl
      rw [segments, htext, segmentsOf_append_slash (by simp [builtinScheme]), hparts]
    rw [isTracked_eq, fileName?_normalize hsegments]
    exact hlast

/-! ## What a load follows -/

/-- A reference of a text leads to a path: to the normal form of what the resolver answers. -/
def SourceText.LeadsTo (s : SourceText) (resolve : Resolver) (r : Reference) (p : Path) : Prop :=
  r ∈ s.references ∧ ∃ target, s.answer resolve r = .ok target ∧ p = target.normalize

/-- The edge of a reference that leads to a path. -/
def Reference.edgeTo (r : Reference) (p : Path) : Dependency where
  specifier := r.specifier
  target := p
  span := r.span
  kind := r.kind

namespace SourceText

variable {s : SourceText} {resolve : Resolver} {r : Reference} {p : Path}

theorem exists_leadsTo_of_mem_edges {d : Dependency} (h : d ∈ s.edges resolve) :
    ∃ r p, s.LeadsTo resolve r p ∧ d = r.edgeTo p := by
  obtain ⟨r, hr, hd⟩ := List.mem_filterMap.mp h
  unfold edge? at hd
  split at hd
  · contradiction
  · rename_i target htarget
    split at hd
    · exact ⟨r, _, ⟨hr, target, htarget, rfl⟩, (Option.some.inj hd).symm⟩
    · contradiction

theorem LeadsTo.mem_edges_iff (h : s.LeadsTo resolve r p) :
    r.edgeTo p ∈ s.edges resolve ↔ isTracked p = true := by
  obtain ⟨hr, target, htarget, rfl⟩ := h
  constructor
  · intro hd
    have htracked := isTracked_of_mem_edges hd
    exact htracked
  · intro ht
    refine List.mem_filterMap.mpr ⟨r, hr, ?_⟩
    unfold edge?
    simp only [htarget, ht, if_true]
    rfl

end SourceText

namespace Workspace

variable {env : Surroundings} {w : Workspace} {root : SourceText} {before : List Path}
  {seen level taken : List SourceText} {l l' : Loading}

/-- A file behind the root refers to a source. -/
def Follows (env : Surroundings) (w : Workspace) (root : SourceText) (p : Path) : Prop :=
  isTracked p = true ∧ ∃ (s : SourceText) (r : Reference), Behind env w root s.path ∧
    root.textIn env.disk s.path = .ok s.text ∧ s.LeadsTo env.resolve r p

theorem Follows.of_mem_edges {s : SourceText} {d : Dependency} (hs : Behind env w root s.path)
    (htext : root.textIn env.disk s.path = .ok s.text) (hd : d ∈ s.edges env.resolve) :
    Follows env w root d.target := by
  obtain ⟨r, hr, target, htarget, _, he⟩ := SourceText.exists_reference_of_mem_edges hd
  exact ⟨SourceText.isTracked_of_mem_edges hd, s, r, hs, htext, hr, target, htarget, he⟩

/-- Resolving reads nothing. -/
theorem not_read_of_mem_resolveAll {requests : List ResolveRequest} {p : Path} :
    .read p ∉ (env.resolveAll requests).1 := by
  induction requests with
  | nil => exact List.not_mem_nil
  | cons request requests ih =>
    unfold Surroundings.resolveAll
    split
    · simp
    · intro h
      rcases List.mem_cons.mp h with h | h
      · cases h
      · exact ih h

/-- No file is read but those that are asked for. -/
theorem mem_of_read_mem_readAll {paths : List Path} {p : Path}
    (h : .read p ∈ (env.readAll paths).1) : p ∈ paths := by
  induction paths with
  | nil => contradiction
  | cons path paths ih =>
    unfold Surroundings.readAll at h
    split at h
    · simp_all
    · rcases List.mem_cons.mp h with h | h
      · cases h
        exact List.mem_cons_self ..
      · exact List.mem_cons_of_mem _ (ih h)

/-- A level reads no files but sources that it refers to, also if it breaks down. -/
theorem mem_edges_of_read_advance {p : Path}
    (h : .read p ∈ (l.advance env level).1.accesses) :
    .read p ∈ l.accesses ∨ ∃ s ∈ level, ∃ d ∈ s.edges env.resolve, d.target = p := by
  cases hresolve : env.resolveAll (level.flatMap ResolveRequest.ofSource) with
  | mk asked resolved =>
  have hasked : .read p ∉ asked := by
    have hnone := @not_read_of_mem_resolveAll env (level.flatMap ResolveRequest.ofSource) p
    rwa [hresolve] at hnone
  cases resolved with
  | error e =>
    rw [advance_of_unresolved l hresolve] at h
    exact .inl ((List.mem_append.mp h).resolve_right hasked)
  | ok resolved =>
    obtain ⟨_, hrequests, htargets⟩ := Surroundings.resolveAll_eq hresolve
    cases hread : env.readAll (l.workspace.wanted resolved) with
    | mk read sources =>
    have hmem : .read p ∈ l.accesses ++ (asked ++ read) := by
      cases sources with
      | error e =>
        rw [advance_of_unreadable l hresolve hread] at h
        exact h
      | ok sources =>
        rw [advance_of_read l hresolve hread] at h
        exact h
    refine (List.mem_append.mp hmem).imp_right fun hmem => ?_
    have hmem := (List.mem_append.mp hmem).resolve_left hasked
    have hwanted : p ∈ l.workspace.wanted resolved := by
      have hall : .read p ∈ (env.readAll (l.workspace.wanted resolved)).1 := by rwa [hread]
      exact mem_of_read_mem_readAll hall
    exact ((mem_wanted ⟨hrequests, htargets⟩).mp hwanted).1

/-- The files that a load has read so far are sources that it was led to. -/
theorem Progress.follows (h : Progress env w root before seen level taken l)
    (hroot : w.files.contains root.path = true) {p : Path} (hp : .read p ∈ l.accesses) :
    Follows env w root p := by
  have hmem : p ∈ taken.map SourceText.path :=
    h.reads ▸ List.mem_filterMap.mpr ⟨.read p, hp, rfl⟩
  obtain ⟨s, hs, rfl⟩ := List.mem_map.mp hmem
  have hfresh := h.extension.fresh s hs
  generalize hpath : s.path = p at hfresh
  cases hpath ▸ h.behind s hs with
  | root =>
    rw [hroot] at hfresh
    contradiction
  | step hbehind htext hd _ => exact .of_mem_edges hbehind htext hd

/-- **A load reads no files but sources that it is led to,** also if it fails. -/
theorem Loads.follows (h : Loads env level l l') (hnormal : root.path.IsNormal)
    (hroot : w.files.contains root.path = true)
    (hp : Progress env w root before seen level taken l) {p : Path}
    (hread : .read p ∈ l'.accesses) :
    Follows env w root p := by
  induction h generalizing seen taken with
  | done l => exact hp.follows hroot hread
  | @level level l l' hne rest ih =>
    rcases advance_cases env level l with ⟨_, hnil⟩ | ha
    · rw [hnil] at rest
      cases rest with
      | level hne _ => exact absurd rfl hne
      | done =>
        rcases mem_edges_of_read_advance hread with hread | ⟨s, hs, d, hd, rfl⟩
        · exact hp.follows hroot hread
        · have hs' := hp.level_cases hs
          exact .of_mem_edges (hp.behind_of_mem hs') (hp.textIn_eq hroot hs') hd
    · exact ih (hp.advance ha hnormal hroot) hread

/-- What a load that ends well has made of a reference: there is an edge to a path, and it is
tracked, just if it is a source.  Other paths are tracked if they were. -/
structure Followed (w w' : Workspace) (s : SourceText) (r : Reference) (p : Path) : Prop where
  edge : r.edgeTo p ∈ w'.graph.dependencies s.path ↔ isTracked p = true
  tracked : w'.files.contains p = true ↔ isTracked p = true ∨ w.files.contains p = true

/-- A file that has been taken in has been read. -/
theorem Progress.read_of_mem (h : Progress env w root before seen level taken l) {t : SourceText}
    (ht : t ∈ taken) : .read t.path ∈ l.accesses := by
  have hmem : t.path ∈ l.accesses.filterMap Access.read? := h.reads ▸ List.mem_map_of_mem ht
  obtain ⟨access, haccess, he⟩ := List.mem_filterMap.mp hmem
  cases access with
  | read path => exact Option.some.inj he ▸ haccess
  | resolve => contradiction

theorem Progress.tracked_iff (h : Progress env w root before (root :: taken) [] taken l)
    (hroot : w.files.contains root.path = true) {s : SourceText} (hs : s ∈ root :: taken)
    {r : Reference} {p : Path} (hp : s.LeadsTo env.resolve r p) :
    l.workspace.files.contains p = true ↔ isTracked p = true ∨ w.files.contains p = true := by
  have hnormal : p.IsNormal := by
    obtain ⟨_, target, _, rfl⟩ := hp
    exact isNormal_normalize target
  constructor
  · intro hc
    rcases (h.extension.contains_iff hnormal).mp hc with hc | hc
    · exact .inr hc
    · obtain ⟨t, ht, rfl⟩ := List.mem_map.mp hc
      exact .inl (h.follows hroot (h.read_of_mem ht)).1
  · rintro (ht | hc)
    · exact h.closed s hs (r.edgeTo p) (hp.mem_edges_iff.mpr ht)
    · exact h.extension.contains_of_contains hc

theorem Progress.followed (h : Progress env w root before (root :: taken) [] taken l)
    (hroot : w.files.contains root.path = true) {s : SourceText} (hs : s ∈ root :: taken)
    {r : Reference} {p : Path} (hp : s.LeadsTo env.resolve r p) :
    Followed w l.workspace s r p where
  edge := by
    rw [h.linked s hs]
    exact hp.mem_edges_iff
  tracked := h.tracked_iff hroot hs hp

/-- **A load follows references to sources, and no others.**  It reads no file but sources that it
is led to, and if it ends well every reference has led somewhere and has got an edge, with a file
that is tracked, just if this is a source by its extension.  Among declaration files the extension
passes over those of modules.  A built-in module is always resolved, to what stands for it; this is
passed over if no part of it is called like a source, but not if its last part is. -/
theorem sources_followed (env : Surroundings) (before : List Path) (hw : w.WellKept)
    (hnormal : root.path.IsNormal) (hroot : w.files.contains root.path = true) :
    (∀ p, .read p ∈ (load env w before root).accesses → Follows env w root p) ∧
    ((load env w before root).failure = none → ∃ taken,
      (load env w before root).workspace.files.files = w.files.files ++ taken.map SourceText.file ∧
      ∀ s ∈ root :: taken,
        (∀ d ∈ (load env w before root).workspace.graph.dependencies s.path,
          ∃ r p, s.LeadsTo env.resolve r p ∧ d = r.edgeTo p) ∧
        ∀ r ∈ s.references, ∃ p, s.LeadsTo env.resolve r p ∧
          Followed w (load env w before root).workspace s r p) ∧
    (∀ p : Path, p.isDeclaration = true ∧ isTracked p = false ↔
      (p.fileName?).any isModuleDeclarationName = true) ∧
    ∀ (resolver : ModuleResolver) (disk : Disk) (context : Path) (specifier name : String),
      builtinName? specifier = some name →
      resolver.resolve disk context specifier = .ok ⟨builtinScheme ++ name⟩ ∧
      ((∀ part ∈ Text.splitOn '/' (builtinScheme ++ name).toList, isSourceName part = false) →
        isTracked (⟨builtinScheme ++ name⟩ : Path).normalize = false) ∧
      ∀ front last : String, name = front ++ "/" ++ last → '/' ∉ last.toList →
        isSourceName last.toList = true →
        isTracked (⟨builtinScheme ++ name⟩ : Path).normalize = true := by
  refine ⟨fun p hp => (loads_load hw hnormal hroot).follows hnormal hroot (progress_start hw) hp,
    fun hok => ?_, isDeclaration_untracked_iff, ?_⟩
  · rcases load_outcome env before hw hnormal hroot with ⟨taken, h⟩ | ⟨_, h⟩
    · refine ⟨taken, congrArg FileStore.files h.extension.files, fun s hs => ⟨fun d hd => ?_,
        fun r hr => ?_⟩⟩
      · exact SourceText.exists_leadsTo_of_mem_edges (h.linked s hs ▸ hd)
      obtain ⟨target, htarget⟩ := h.resolves s hs r hr
      have hleads : s.LeadsTo env.resolve r target.normalize := ⟨hr, target, htarget, rfl⟩
      exact ⟨_, hleads, h.followed hroot hs hleads⟩
    · obtain ⟨e, he, _⟩ := h.failure
      rw [hok] at he
      contradiction
  · intro resolver disk context specifier name hname
    refine ⟨?_, isTracked_builtin name⟩
    rw [ModuleResolver.resolve, hname]

/-- A directory with a source and the declarations of a module. -/
def mixedDisk : Disk :=
  ⟨[], [(["p"], .directory 0), (["p", "x.d.mts"], .file (some "") 0),
    (["p", "y.ts"], .file (some "") 0)]⟩

def mixedTree : Surroundings := ⟨mixedDisk, ModuleResolver.unbounded.resolve mixedDisk⟩

/-- A file of a single directive, which names something under an attribute. -/
def directing (name value : String) : SourceText :=
  ⟨⟨"/p/a.ts"⟩, "/// <reference " ++ name ++ "='" ++ value ++ "'/>\n"⟩

def startedWith (root : SourceText) : Workspace := empty.insertNew mixedDisk root

/-- What is loaded for a file that is the first one. -/
def loadedFor (root : SourceText) : Loading := load mixedTree (startedWith root) [] root

theorem sources_followed_directing :
    ((loadedFor (directing "path" "y.ts")).failure = none ∧ builtinName? "fs" = some "fs") ∧
    (∃ p, (directing "path" "y.ts").LeadsTo mixedTree.resolve ⟨.directive, "y.ts", ⟨21, 25⟩⟩ p ∧
      Followed (startedWith (directing "path" "y.ts"))
        (loadedFor (directing "path" "y.ts")).workspace (directing "path" "y.ts")
        ⟨.directive, "y.ts", ⟨21, 25⟩⟩ p) ∧
    isTracked (⟨"node:fs"⟩ : Path).normalize = false := by
  have hok : (loadedFor (directing "path" "y.ts")).failure = none :=
    Option.isNone_iff_eq_none.mp (by decide +kernel)
  have hnew : empty.files.contains (directing "path" "y.ts").path = false := rfl
  have hkept := wellKept_empty.insertNew mixedDisk hnew
  have hnormal : (directing "path" "y.ts").path.IsNormal := congrArg Path.mk (by decide +kernel)
  obtain ⟨-, hgood, -, hbuiltin⟩ := sources_followed mixedTree [] hkept.1 hnormal hkept.2
  obtain ⟨taken, -, hall⟩ := hgood hok
  have hr : ⟨.directive, "y.ts", ⟨21, 25⟩⟩ ∈ (directing "path" "y.ts").references := by
    decide +kernel
  have hfs : builtinName? "fs" = some "fs" := by decide +kernel
  refine ⟨⟨hok, hfs⟩, (hall _ (List.mem_cons_self ..)).2 _ hr, ?_⟩
  exact (hbuiltin .unbounded mixedDisk ⟨"/p"⟩ "fs" "fs" hfs).2.1 (by decide +kernel)

/-- **Declarations of modules are missed, and files are read for built-in modules:** the first are
passed over though the reference leads to them, and a built-in module that is called like a source
is looked for in the file tree. -/
theorem targets_misjudged :
    ((mixedTree.resolve ⟨"/p"⟩ "./x.d.mts").toOption.map fun p => (p.text, p.isDeclaration)) =
        some ("/p/x.d.mts", true) ∧
      (loadedFor (directing "types" "./x.d.mts")).failure.isNone = true ∧
      ((loadedFor (directing "types" "./x.d.mts")).workspace.graph.dependencies
        ⟨"/p/a.ts"⟩).isEmpty = true ∧
      (loadedFor (directing "types" "./x.d.mts")).workspace.files.contains ⟨"/p/x.d.mts"⟩ = false ∧
      builtinName? "fs/x.ts" = some "fs/x.ts" ∧
      ((loadedFor (directing "types" "fs/x.ts")).accesses.filterMap Access.read?).map Path.text =
        ["node:fs/x.ts"] ∧
      (loadedFor (directing "types" "fs/x.ts")).failure.map EngineError.message =
        some "cannot read node:fs/x.ts: No such file or directory (os error 2)" := by
  refine ⟨?_, ?_, ?_, ?_, ?_, ?_, ?_⟩ <;> decide +kernel

end Workspace

end TypeScriptEngine
