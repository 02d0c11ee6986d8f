import Mathlib.Data.List.Find
import TypeScriptEngine.Proofs.Disk.Written
import TypeScriptEngine.Proofs.Resolution.Probe
import TypeScriptEngine.Proofs.Workspace.Edges

/-! # Resolving beside emitted code

A build in place writes code and maps beside sources (`Disk.BuiltInPlace`).  No extension that is
tried is the end of another one, so that a new file among the paths with an extension always stands
behind a source with the same stem, which is tried before it and was there already
(`Resolution.find?_extensions`).  The only new file that can be found is therefore a path itself that
is asked for (`ModuleResolver.asked`), as it is.  Apart from that, targets and edges stay
(`ModuleResolver.resolve_eq`, `SourceText.edges_eq`); sources and manifests keep their texts.
-/

namespace TypeScriptEngine

open TypeScriptEngine.Path Segment

/-! ## Emitted code -/

namespace Disk

/-- The extensions of emitted code and of its maps. -/
def codeExtensions : List String := ["js", "jsx", "js.map", "jsx.map"]

/-- A place beside a source, with the stem of the source and an extension of emitted code. -/
def IsEmitted (disk : Disk) (place : Place) : Prop :=
  ∃ directory stem code source, code ∈ codeExtensions ∧ source ∈ ["ts", "tsx"] ∧
    place = directory ++ [stem ++ "." ++ code] ∧
      disk.isFile (ofNames (directory ++ [stem ++ "." ++ source])) = true

/-- A tree after a build that writes code beside its sources, and nothing else. -/
abbrev BuiltInPlace (before after : Disk) : Prop := WrittenAt before.IsEmitted before after

/-- A path is a file only in the later of two trees. -/
def IsNewFile (before after : Disk) (p : Path) : Prop :=
  before.isFile p = false ∧ after.isFile p = true

instance (before after : Disk) (p : Path) : Decidable (IsNewFile before after p) :=
  inferInstanceAs (Decidable (_ ∧ _))

end Disk

namespace Resolution

open Disk

variable {before after : Disk} {names : List String} {name extension : String}
  {target directory context : Path}

/-- No extension that is tried and no extension of emitted code is the end of the other, unless they
are the same. -/
theorem eq_of_code_extension {s code : String} (he : extension ∈ extensions)
    (hcode : code ∈ codeExtensions) (h : s.endsWith ("." ++ extension) = true)
    (h' : s.endsWith ("." ++ code) = true) : extension = code := by
  have hapart : ∀ e ∈ extensions, ∀ c ∈ codeExtensions, e ≠ c →
      ¬ ("." ++ e).toList <:+ ("." ++ c).toList ∧ ¬ ("." ++ c).toList <:+ ("." ++ e).toList := by
    decide
  by_contra hne
  obtain ⟨hec, hce⟩ := hapart extension he code hcode hne
  rw [endsWith_eq_false h' hec hce] at h
  contradiction

/-- **Beside emitted code is its source,** with an extension that is tried before that of the code. -/
theorem source_of_isEmitted (he : extension ∈ extensions)
    (h : before.IsEmitted (suffixed names extension)) :
    extension ∉ ["ts", "tsx"] ∧
      ∃ source ∈ ["ts", "tsx"], before.isFile (ofNames (suffixed names source)) = true := by
  obtain ⟨directory, stem, code, source, hcode, hsource, hplace, hfile⟩ := h
  obtain ⟨rfl, hname⟩ := List.append_inj' hplace rfl
  have hname : names.getLast?.getD "" ++ "." ++ extension = stem ++ "." ++ code :=
    List.singleton_inj.mp hname
  have hends := endsWith_append_self (names.getLast?.getD "") ("." ++ extension)
  have hends' := endsWith_append_self stem ("." ++ code)
  rw [← String.append_assoc] at hends hends'
  rw [← hname] at hends'
  obtain rfl := eq_of_code_extension he hcode hends hends'
  have hstem : names.getLast?.getD "" = stem := by
    rwa [String.append_left_inj, String.append_left_inj] at hname
  refine ⟨?_, source, hsource, ?_⟩
  · have hapart : ∀ c ∈ codeExtensions, c ∉ ["ts", "tsx"] := by decide
    exact hapart extension hcode
  · rw [suffixed, hstem]
    exact hfile

/-! ## Paths that are tried -/

/-- The entries that the manifest of a package names; there are none without a manifest. -/
def manifestEntries (disk : Disk) (directory : Path) : Except ResolveError (List String) :=
  if disk.isFile (directory.join ⟨"package.json"⟩) then
    (Manifest.read disk (directory.join ⟨"package.json"⟩)).map Manifest.entries
  else pure []

/-- What is tried in a package: the path inside it that is asked for, or else what its manifest names,
and then its index. -/
def entriesTried (disk : Disk) (directory : Path) : Option String → List String
  | some inner => [inner]
  | none =>
    match manifestEntries disk directory with
    | .ok entries => entries ++ ["index"]
    | .error _ => []

theorem packageEntry?_none (disk : Disk) (directory : Path) :
    packageEntry? disk directory none = (manifestEntries disk directory).map fun entries =>
      (entries ++ ["index"]).findSome? fun entry => probe? disk (directory.join ⟨entry⟩) := by
  unfold packageEntry? manifestEntries
  by_cases hfile : disk.isFile (directory.join ⟨"package.json"⟩) = true
  · simp only [hfile, if_true]
    cases Manifest.read disk (directory.join ⟨"package.json"⟩) <;> rfl
  · simp only [hfile]
    rfl

/-- **New files among the extensions are not found,** if each of them stands behind a source. -/
theorem find?_extensions {old new : String → Bool} (hkept : ∀ e, old e = true → new e = true)
    (hnew : ∀ e ∈ extensions, new e = true → old e = true ∨
      e ∉ ["ts", "tsx"] ∧ ∃ source ∈ ["ts", "tsx"], old source = true) :
    extensions.find? new = extensions.find? old := by
  have hsource : ∀ e ∈ ["ts", "tsx"], new e = old e := by
    intro e he
    have hextension : ∀ e ∈ ["ts", "tsx"], e ∈ extensions := by decide
    refine Bool.eq_iff_iff.mpr ⟨fun h => ?_, hkept e⟩
    exact (hnew e (hextension e he) h).resolve_right fun hno => hno.1 he
  have hts := hsource "ts" (by decide)
  have htsx := hsource "tsx" (by decide)
  by_cases hany : old "ts" = false ∧ old "tsx" = false
  · -- without a source, no file is new
    refine List.find?_congr fun e he => Bool.eq_iff_iff.mpr ⟨fun hfile => ?_, hkept e⟩
    refine (hnew e he hfile).resolve_right ?_
    rintro ⟨-, source, hsource, hold⟩
    rcases List.mem_cons.mp hsource with rfl | hsource
    · exact absurd (hany.1.symm.trans hold) Bool.false_ne_true
    · rw [List.mem_singleton.mp hsource] at hold
      exact absurd (hany.2.symm.trans hold) Bool.false_ne_true
  · simp only [extensions, List.find?_cons, hts, htsx]
    cases h : old "ts" <;> cases h' : old "tsx" <;> simp_all

/-- **What is put behind a path is at the end of its file name.** -/
theorem fileName?_withSuffix (path : Path) (he : extension ∈ extensions) :
    ∃ name, (withSuffix path extension).fileName? = some name ∧
      name.endsWith ("." ++ extension) = true := by
  have hextensions : ∀ e ∈ extensions,
      '/' ∉ ("." ++ e).toList ∧ 3 ≤ ("." ++ e).toList.length := by decide
  obtain ⟨hslash, hlong⟩ := hextensions extension he
  have htext : (withSuffix path extension).text.toList =
      path.text.toList ++ ("." ++ extension).toList := by
    simp [withSuffix]
  obtain ⟨parts, part, -, hsplit⟩ := Text.splitOn_append_last path.text.toList hslash
  have hlength : 3 ≤ (part ++ ("." ++ extension).toList).length := by
    rw [List.length_append]
    omega
  have hname : ofPart? (part ++ ("." ++ extension).toList) =
      some (.name (String.ofList (part ++ ("." ++ extension).toList))) := by
    have hne : ∀ cs : List Char, cs.length ≤ 2 → part ++ ("." ++ extension).toList ≠ cs := by
      rintro cs hcs he
      rw [he] at hlength
      omega
    rw [ofPart?, if_neg (not_or.mpr ⟨hne _ (by decide), hne _ (by decide)⟩),
      if_neg (hne _ (by decide))]
  refine ⟨String.ofList (part ++ ("." ++ extension).toList), ?_, ?_⟩
  · rw [fileName?, segments, segmentsOf_eq, partsOf, htext, hsplit, List.filterMap_append,
      List.filterMap_cons_some hname, List.filterMap_nil, ← List.append_assoc, List.getLast?_concat]
    rfl
  · rw [Text.endsWith_iff, String.toList_ofList]
    exact List.suffix_append _ _

theorem fileName?_join (hdirectory : directory.isAbsolute = true) (hname : IsName name) :
    (directory.join ⟨name⟩).fileName? = some name := by
  have hplain : (Segment.name name).Plain := hname
  have hrelative : (⟨name⟩ : Path).isAbsolute = false := isAbsolute_text hplain
  obtain ⟨cs, hcs, -⟩ := exists_partsOf hdirectory
  rw [fileName?, segments_join hrelative (by rw [hcs]; exact List.cons_ne_nil _ _),
    partsOf_name hname, List.getLast?_concat]
  rfl

/-- No emitted code has the name of a source or of a manifest. -/
theorem getLast?_ne_of_isEmitted {place : Place} (hplace : before.IsEmitted place)
    (hname : ∀ code ∈ codeExtensions, name.endsWith ("." ++ code) = false) :
    place.getLast? ≠ some name := by
  obtain ⟨directory, stem, code, source, hcode, -, rfl, -⟩ := hplace
  rw [List.getLast?_concat]
  intro he
  obtain rfl := Option.some.inj he
  have hends := endsWith_append_self stem ("." ++ code)
  rw [← String.append_assoc, hname code hcode] at hends
  contradiction

variable (h : BuiltInPlace before after)
include h

theorem isFile_suffixed_cases (hnames : ∀ n ∈ names, IsName n) (he : extension ∈ extensions)
    (hfile : after.isFile (ofNames (suffixed names extension)) = true) :
    before.isFile (ofNames (suffixed names extension)) = true ∨ extension ∉ ["ts", "tsx"] ∧
      ∃ source ∈ ["ts", "tsx"], before.isFile (ofNames (suffixed names source)) = true := by
  refine (h.isFile_cases hfile).imp_right ?_
  rintro ⟨place, hplace, hwalk⟩
  have hsuffixed := isName_suffixed hnames he
  rw [segments_ofNames hsuffixed] at hwalk
  obtain ⟨next, hroot, hrest⟩ := walk_cons hwalk
  obtain rfl := Except.ok.inj hroot
  have hplace' : place = suffixed names extension :=
    (walk_names hrest).trans (List.nil_append _)
  exact source_of_isEmitted he (hplace' ▸ hplace)

/-- **A path means what it meant before the build,** unless it has become a file itself. -/
theorem probe?_eq (htarget : target.isAbsolute = true)
    (hnew : ¬ IsNewFile before after target.normalize) :
    probe? after target = probe? before target := by
  obtain ⟨hnames, hnormal⟩ := normalize_eq_ofNames htarget
  have hindex : ∀ n ∈ target.names ++ ["index"], IsName n :=
    isName_concat hnames (by refine ⟨?_, ?_, ?_, ?_⟩ <;> decide)
  have hself : after.isFile (ofNames target.names) = before.isFile (ofNames target.names) := by
    rw [← hnormal]
    cases hbefore : before.isFile target.normalize with
    | true => exact h.isFile_of_isFile hbefore
    | false => exact Bool.eq_false_iff.mpr fun hafter => hnew ⟨hbefore, hafter⟩
  have hfound (names : List String) (hnames : ∀ n ∈ names, IsName n) :
      (extensions.map fun e => ofNames (suffixed names e)).find? after.isFile =
        (extensions.map fun e => ofNames (suffixed names e)).find? before.isFile := by
    rw [List.find?_map, List.find?_map]
    refine congrArg (Option.map _) (find?_extensions (fun e => h.isFile_of_isFile) ?_)
    exact fun e he hfile => isFile_suffixed_cases h hnames he hfile
  rw [probe?, probe?, candidates_eq htarget, List.find?_append, List.find?_append, List.find?_append,
    List.find?_append, hfound _ hnames, hfound _ hindex, List.find?_singleton, List.find?_singleton, hself]

/-- Files with an extension of sources are those that there were. -/
theorem isFile_withSuffix_eq (path : Path) (he : extension ∈ ["ts", "tsx", "d.ts"]) :
    after.isFile (withSuffix path extension) = before.isFile (withSuffix path extension) := by
  have hextension : ∀ e ∈ ["ts", "tsx", "d.ts"], e ∈ extensions ∧ e ∉ codeExtensions := by decide
  obtain ⟨he, hne⟩ := hextension extension he
  obtain ⟨name, hname, hends⟩ := fileName?_withSuffix path he
  refine h.isFile_eq_of_name hname fun place hplace => getLast?_ne_of_isEmitted hplace ?_
  intro code hcode
  refine Bool.eq_false_iff.mpr fun hends' => ?_
  exact hne (eq_of_code_extension he hcode hends hends' ▸ hcode)

theorem probeSource?_eq (path : Path) : probeSource? after path = probeSource? before path := by
  have hfound (base : Path) : (["ts", "tsx", "d.ts"].map (withSuffix base)).find? after.isFile =
      (["ts", "tsx", "d.ts"].map (withSuffix base)).find? before.isFile := by
    refine List.find?_congr fun p hp => ?_
    obtain ⟨e, he, rfl⟩ := List.mem_map.mp hp
    exact isFile_withSuffix_eq h base he
  unfold probeSource?
  simp only [hfound]

/-! ## Sources, manifests and packages -/

/-- **A path without a name of emitted code** leads to what it led to before. -/
theorem lookUp_iff_of_name {path : Path} (hfile : path.fileName? = some name)
    (hname : ∀ code ∈ codeExtensions, name.endsWith ("." ++ code) = false) :
    after.isFile path = before.isFile path ∧
      ∀ found, after.lookUp path = .ok found ↔ before.lookUp path = .ok found := by
  have hplaces : ∀ place, before.IsEmitted place → place.getLast? ≠ some name :=
    fun place hplace => getLast?_ne_of_isEmitted hplace hname
  exact ⟨h.isFile_eq_of_name hfile hplaces, h.lookUp_eq_of_name hfile hplaces⟩

/-- **A build in place changes no source.** -/
theorem read_iff_of_isTracked {path : Path} (htracked : isTracked path = true) (text : String) :
    after.read path = .ok text ↔ before.read path = .ok text := by
  obtain ⟨name, source, hfile, hsource, hname⟩ := exists_name_of_isTracked htracked
  have hcode : ∀ code ∈ codeExtensions, name.endsWith ("." ++ code) = false := by
    have hsources : ∀ source ∈ ["ts", "tsx"], source ∈ extensions ∧ source ∉ codeExtensions := by
      decide
    obtain ⟨he, hne⟩ := hsources source hsource
    have hends := endsWith_append_self (stemOf name) ("." ++ source)
    rw [← String.append_assoc, ← hname] at hends
    exact fun code hcode => Bool.eq_false_iff.mpr fun hends' =>
      hne (eq_of_code_extension he hcode hends hends' ▸ hcode)
  obtain ⟨-, hlookUp⟩ := lookUp_iff_of_name h hfile hcode
  unfold Disk.read
  rw [bind_eq_ok_iff, bind_eq_ok_iff]
  simp only [hlookUp]

/-- A manifest is there, and says what it said before. -/
theorem manifest_eq (hdirectory : directory.isAbsolute = true) :
    after.isFile (directory.join ⟨"package.json"⟩) = before.isFile (directory.join ⟨"package.json"⟩) ∧
      (before.isFile (directory.join ⟨"package.json"⟩) = true →
        Manifest.read after (directory.join ⟨"package.json"⟩) =
          Manifest.read before (directory.join ⟨"package.json"⟩)) := by
  have hname : IsName "package.json" := by refine ⟨?_, ?_, ?_, ?_⟩ <;> decide
  have hcode : ∀ code ∈ codeExtensions, ¬ ("." ++ code).toList <:+ "package.json".toList := by
    decide
  obtain ⟨hfile, hlookUp⟩ := lookUp_iff_of_name h (fileName?_join hdirectory hname)
    fun code hmem => Bool.eq_false_iff.mpr (mt Text.endsWith_iff.mp (hcode code hmem))
  refine ⟨hfile, fun hthere => ?_⟩
  obtain ⟨place, text, time, hfound⟩ := isFile_iff.mp hthere
  unfold Manifest.read Disk.read
  rw [hfound, (hlookUp _).mpr hfound]

/-- A manifest names the entries that it named. -/
theorem manifestEntries_eq (hdirectory : directory.isAbsolute = true) :
    manifestEntries after directory = manifestEntries before directory := by
  obtain ⟨hthere, hread⟩ := manifest_eq h hdirectory
  unfold manifestEntries
  rw [hthere]
  split
  · rename_i hfile
    rw [hread hfile]
  · rfl

/-- A package has the entry that it had, unless one that is tried has become a file. -/
theorem packageEntry?_eq (hdirectory : directory.isAbsolute = true) (inner : Option String)
    (hnew : ∀ entry ∈ entriesTried before directory inner,
      ¬ IsNewFile before after (directory.join ⟨entry⟩).normalize) :
    packageEntry? after directory inner = packageEntry? before directory inner := by
  have hprobe (entry : String) (hentry : entry ∈ entriesTried before directory inner) :
      probe? after (directory.join ⟨entry⟩) = probe? before (directory.join ⟨entry⟩) :=
    probe?_eq h (isAbsolute_join hdirectory _) (hnew entry hentry)
  cases inner with
  | some inner => exact congrArg Except.ok (hprobe inner (List.mem_singleton_self _))
  | none =>
    rw [packageEntry?_none, packageEntry?_none, manifestEntries_eq h hdirectory]
    cases hentries : manifestEntries before directory with
    | error cause => simp only [Except.map]
    | ok entries =>
      have htried : entriesTried before directory none = entries ++ ["index"] := by
        rw [entriesTried, hentries]
      rw [htried] at hprobe
      simp only [Except.map]
      rw [← List.head?_filterMap, ← List.head?_filterMap, List.filterMap_congr hprobe]

/-- So a package is found where it was found. -/
theorem firstPackage?_eq (inner : Option String) {directories : List Path}
    (habsolute : ∀ directory ∈ directories, directory.isAbsolute = true)
    (hnew : ∀ directory ∈ directories, before.isDirectory directory = true →
      ∀ entry ∈ entriesTried before directory inner,
        ¬ IsNewFile before after (directory.join ⟨entry⟩).normalize) :
    firstPackage? after inner directories = firstPackage? before inner directories := by
  induction directories with
  | nil => rfl
  | cons directory directories ih =>
    have hrest := ih (fun d hd => habsolute d (List.mem_cons_of_mem _ hd))
      fun d hd => hnew d (List.mem_cons_of_mem _ hd)
    unfold firstPackage?
    rw [h.isDirectory_eq, hrest]
    by_cases hthere : before.isDirectory directory = true
    · rw [packageEntry?_eq h (habsolute directory (List.mem_cons_self ..)) inner
        (hnew directory (List.mem_cons_self ..) hthere)]
    · rw [if_neg hthere, if_neg hthere]

end Resolution

namespace ModuleResolver

open Resolution Disk

variable {resolver : ModuleResolver} {before after : Disk} {context : Path} {specifier : String}

theorem mem_of_mem_searchPath {directory : Path} {directories : List Path}
    (h : directory ∈ resolver.searchPath directories) : directory ∈ directories := by
  induction directories with
  | nil => exact h
  | cons first directories ih =>
    rw [searchPath] at h
    split at h
    · rw [List.mem_singleton.mp h]
      exact List.mem_cons_self ..
    · rcases List.mem_cons.mp h with rfl | h
      · exact List.mem_cons_self ..
      · exact List.mem_cons_of_mem _ (ih h)

theorem isAbsolute_of_mem_packageDirectories (hcontext : context.isAbsolute = true)
    {package : String} {directory : Path}
    (h : directory ∈ resolver.packageDirectories context package) : directory.isAbsolute = true := by
  obtain ⟨name, -, hname⟩ := List.mem_flatMap.mp h
  obtain ⟨above, habove, rfl⟩ := List.mem_map.mp hname
  have hancestor := mem_of_mem_searchPath habove
  exact isAbsolute_join (isAbsolute_join (isAbsolute_of_mem_ancestorsUpTo hcontext hancestor) _) _

/-- **A build in place changes no project,** so that packages are looked for as before. -/
theorem ofBase_eq (h : BuiltInPlace before after) {base : Path} (hbase : base.isAbsolute = true) :
    ofBase after base = ofBase before base := by
  refine congrArg ModuleResolver.mk (List.find?_congr fun directory hdirectory => ?_)
  exact (manifest_eq h (isAbsolute_of_mem_ancestorsUpTo hbase hdirectory)).1

/-- **The paths that a resolver asks for:** none for a built-in module, the path that a specifier is, or
what may be tried in the packages that are there under its name. -/
def asked (resolver : ModuleResolver) (disk : Disk) (context : Path) (specifier : String) :
    List Path :=
  match builtinName? specifier with
  | some _ => []
  | none =>
    if isPath specifier then [context.join ⟨specifier⟩]
    else
      let wanted := PackageSpecifier.ofText specifier
      ((resolver.packageDirectories context wanted.package).filter disk.isDirectory).flatMap
        fun directory =>
          (entriesTried disk directory wanted.inner).map fun entry => directory.join ⟨entry⟩

/-- **A build in place changes no target** unless a path that is asked for has become a file. -/
theorem resolve_eq (h : BuiltInPlace before after) (hcontext : context.isAbsolute = true)
    (hnew : ∀ target ∈ resolver.asked before context specifier,
      ¬ IsNewFile before after target.normalize) :
    resolver.resolve after context specifier = resolver.resolve before context specifier := by
  unfold asked at hnew
  unfold resolve
  cases hbuiltin : builtinName? specifier with
  | some name => rfl
  | none =>
    simp only [hbuiltin] at hnew ⊢
    cases hpath : isPath specifier with
    | true =>
      rw [hpath] at hnew
      have htarget := hnew _ (List.mem_singleton_self _)
      simp only [if_true, probe?_eq h (isAbsolute_join hcontext _) htarget, probeSource?_eq h]
    | false =>
      rw [hpath] at hnew
      have hfound := firstPackage?_eq h (PackageSpecifier.ofText specifier).inner
        (fun directory hdirectory => isAbsolute_of_mem_packageDirectories hcontext hdirectory)
        fun directory hdirectory hthere entry hentry => hnew _ (List.mem_flatMap.mpr
          ⟨directory, List.mem_filter.mpr ⟨hdirectory, hthere⟩, List.mem_map.mpr ⟨entry, hentry, rfl⟩⟩)
      simp only [Bool.false_eq_true, if_false, resolvePackage, hfound]

end ModuleResolver

namespace SourceText

open Disk

/-- **A build in place changes no edge** of a source unless a path that one of its references asks for has
become a file. -/
theorem edges_eq {resolver : ModuleResolver} {before after : Disk} (h : BuiltInPlace before after)
    {s : SourceText} (hdirectory : s.directory.isAbsolute = true)
    (hnew : ∀ r ∈ s.references,
      ∀ target ∈ resolver.asked before s.directory (ResolveRequest.askedSpecifier s.directory r),
        ¬ IsNewFile before after target.normalize) :
    s.edges (resolver.resolve after) = s.edges (resolver.resolve before) := by
  unfold edges
  refine List.filterMap_congr fun r hr => ?_
  unfold edge? answer
  rw [ModuleResolver.resolve_eq h hdirectory (hnew r hr)]

end SourceText

end TypeScriptEngine
