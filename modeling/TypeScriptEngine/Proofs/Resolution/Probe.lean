import TypeScriptEngine.Engine.Workspace
import TypeScriptEngine.Proofs.Path.Extension
import TypeScriptEngine.Proofs.Path.Relative
import TypeScriptEngine.Resolution.Module

/-! # Which files are tried for a path

The files that an absolute path may mean are spelled by its names, with an extension behind the last
one or with a further name (`candidates_eq`).  A specifier that is a path means the first of them
that is there, or else a source that the code with this name comes from (`resolve_of_isPath`).  So the
name of emitted code means a file as soon as a source of it is there, but a source only if none of
the other files is found first, of which the code itself is one (`resolve_emitted_name`).
-/

namespace TypeScriptEngine

open TypeScriptEngine.Path Segment

namespace Path

/-- Names with an extension behind the last one; without names, the extension with its dot. -/
def suffixed (names : List String) (extension : String) : List String :=
  names.dropLast ++ [names.getLast?.getD "" ++ "." ++ extension]

theorem suffixed_concat (names : List String) (name extension : String) :
    suffixed (names ++ [name]) extension = names ++ [name ++ "." ++ extension] := by
  rw [suffixed, List.dropLast_concat, List.getLast?_concat, Option.getD_some]

end Path

namespace Resolution

variable {disk : Disk} {names : List String} {stem name extension : String} {target : Path}

/-- An extension that is tried is long enough to make a name of anything. -/
theorem isName_suffix (hslash : '/' ∉ name.toList) (h : extension ∈ extensions) :
    IsName (name ++ "." ++ extension) := by
  have hextensions : ∀ e ∈ extensions, 2 ≤ e.toList.length ∧ '/' ∉ e.toList := by decide
  obtain ⟨htwo, hslash'⟩ := hextensions extension h
  have htext : (name ++ "." ++ extension).toList = name.toList ++ '.' :: extension.toList := by
    simp
  refine isName_of_length ?_ ?_
  · rw [htext, List.length_append, List.length_cons]
    omega
  · rw [htext, List.mem_append, List.mem_cons, not_or, not_or]
    exact ⟨hslash, by decide, hslash'⟩

theorem isName_suffixed (h : ∀ name ∈ names, IsName name) (hextension : extension ∈ extensions) :
    ∀ name ∈ suffixed names extension, IsName name := by
  intro name hname
  rcases List.eq_nil_or_concat names with rfl | ⟨init, last, rfl⟩
  · rw [List.mem_singleton.mp hname]
    exact isName_suffix (by decide) hextension
  · rw [List.concat_eq_append] at h hname
    rw [suffixed_concat] at hname
    rcases List.mem_append.mp hname with hname | hname
    · exact h name (List.mem_append_left _ hname)
    · rw [List.mem_singleton.mp hname]
      exact isName_suffix (h last (by simp)).2.2.2 hextension

theorem withSuffix_ofNames (h : ∀ name ∈ names, IsName name) (hextension : extension ∈ extensions) :
    withSuffix (ofNames names) extension = ofNames (suffixed names extension) := by
  rcases List.eq_nil_or_concat names with rfl | ⟨init, last, rfl⟩
  · have hroot : ∀ e ∈ extensions,
        (withSuffix (ofNames []) e).text = (ofNames (suffixed [] e)).text := by decide +kernel
    exact congrArg Path.mk (hroot extension hextension)
  · rw [List.concat_eq_append] at h ⊢
    have hlast := h last (by simp)
    have hname := isName_suffix hlast.2.2.2 hextension
    rw [String.append_assoc] at hname
    rw [suffixed_concat, withSuffix, String.append_assoc, String.append_assoc,
      text_append_ofNames init hlast hname]

/-- **The files that an absolute path may mean,** in order. -/
theorem candidates_eq (h : target.isAbsolute = true) :
    candidates target = (extensions.map fun e => ofNames (suffixed target.names e)) ++
      [ofNames target.names] ++
      extensions.map fun e => ofNames (suffixed (target.names ++ ["index"]) e) := by
  obtain ⟨hnames, hnormal⟩ := normalize_eq_ofNames h
  have hindex : ∀ name ∈ target.names ++ ["index"], IsName name :=
    isName_concat hnames (by refine ⟨?_, ?_, ?_, ?_⟩ <;> decide)
  have hhere : extensions.map (withSuffix (ofNames target.names)) =
      extensions.map fun e => ofNames (suffixed target.names e) :=
    List.map_congr_left fun e he => withSuffix_ofNames hnames he
  have hbelow : extensions.map (withSuffix (ofNames (target.names ++ ["index"]))) =
      extensions.map fun e => ofNames (suffixed (target.names ++ ["index"]) e) :=
    List.map_congr_left fun e he => withSuffix_ofNames hindex he
  unfold candidates
  simp only [hnormal, ofNames_join, hhere, hbelow]

/-- Spellings of one path may mean the same files. -/
theorem candidates_congr {p q : Path} (h : p.normalize = q.normalize) :
    candidates p = candidates q := by
  unfold candidates
  rw [h]

/-! ## Specifiers that are paths -/

/-- A path begins with dots or nothing before its first slash. -/
theorem firstPart_of_isPath {specifier : String} (h : isPath specifier = true) :
    specifier.toList.takeWhile (· != '/') ∈ [['.'], ['.', '.'], []] := by
  simp only [isPath, Bool.or_eq_true, beq_iff_eq, String.startsWith_string_iff] at h
  rcases h with (((⟨rest, hrest⟩ | ⟨rest, hrest⟩) | rfl) | rfl) | habsolute
  · rw [← hrest]
    simp
  · rw [← hrest]
    simp
  · decide
  · decide
  · obtain ⟨cs, hcs, -⟩ := exists_partsOf habsolute
    have hcs : specifier.toList = '/' :: cs := hcs
    rw [hcs]
    simp

/-- No built-in module has the name of a path. -/
theorem builtinName?_of_isPath {specifier : String} (h : isPath specifier = true) :
    builtinName? specifier = none := by
  have hfirst := firstPart_of_isPath h
  have hscheme : specifier.startsWith builtinScheme = false := by
    rw [← Bool.not_eq_true, String.startsWith_string_iff]
    rintro ⟨rest, hrest⟩
    rw [← hrest] at hfirst
    simp [builtinScheme] at hfirst
  have hnames : ∀ first ∈ [['.'], ['.', '.'], []],
      builtinNames.contains (String.ofList first) = false := by decide
  rw [builtinName?, hscheme, hnames _ hfirst]
  rfl

theorem isPath_here (text : String) : isPath ("./" ++ text) = true := by
  simp [isPath]

/-- **A specifier that is a path means** the first file that the path may mean, or else the source of
the code that it names. -/
theorem resolve_of_isPath (resolver : ModuleResolver) (disk : Disk) (context : Path)
    {specifier : String} (h : isPath specifier = true) :
    resolver.resolve disk context specifier =
      ((probe? disk (context.join ⟨specifier⟩)).or
        (probeSource? disk (context.join ⟨specifier⟩))).elim
          (.error (.notFound specifier context)) .ok := by
  rw [ModuleResolver.resolve, builtinName?_of_isPath h, if_pos h]
  simp only
  split
  · rename_i hfound
    rw [hfound, Option.elim_some]
  · rename_i hfound
    rw [hfound, Option.elim_none]

/-! ## The name of emitted code -/

theorem partsOf_name (hname : IsName name) : partsOf name.toList = [.name name] := by
  have hplain : (Segment.name name).Plain := hname
  rw [partsOf, Text.splitOn_of_not_mem hname.2.2.2]
  exact List.filterMap_cons_some (ofPart?_text hplain)

theorem partsOf_here (hname : IsName name) : partsOf ("./" ++ name).toList = [.name name] := by
  have htext : ("./" ++ name).toList = ['.'] ++ '/' :: name.toList := by simp
  rw [htext, partsOf_append_slash, partsOf_name hname]
  rfl

/-- The path of a name in a directory, spelled with the current directory before the name. -/
def hereIn (names : List String) (name : String) : Path := (ofNames names).join ⟨"./" ++ name⟩

theorem segments_hereIn (h : ∀ n ∈ names ++ [name], IsName n) :
    (hereIn names name).segments = .root :: (names ++ [name]).map .name := by
  have hinit := fun n hn => h n (List.mem_append_left _ hn)
  have hname := h name (by simp)
  have hrelative : (⟨"./" ++ name⟩ : Path).isAbsolute = false := by simp [isAbsolute]
  rw [hereIn, segments_join hrelative (toList_ofNames_ne_nil hinit), partsOf_here hname, segments_ofNames hinit]
  simp

theorem normalize_hereIn (h : ∀ n ∈ names ++ [name], IsName n) :
    (hereIn names name).normalize = ofNames (names ++ [name]) := by
  refine normalize_of_foldl_step ?_
  rw [segments_hereIn h, List.foldl_cons, foldl_step_names]
  rfl

theorem fileName?_hereIn (h : ∀ n ∈ names ++ [name], IsName n) :
    (hereIn names name).fileName? = some name := by
  rw [fileName?, segments_hereIn h, List.map_append, ← List.cons_append, List.map_singleton,
    List.getLast?_concat]
  rfl

theorem toList_hereIn (h : ∀ n ∈ names, IsName n) (name : String) :
    (hereIn names name).text.toList =
      (if names = [] then [] else (ofNames names).text.toList) ++ ['/', '.'] ++
        '/' :: name.toList := by
  have hrelative : (⟨"./" ++ name⟩ : Path).isAbsolute = false := by simp [isAbsolute]
  unfold hereIn join
  rw [if_neg (by simp [hrelative])]
  rcases List.eq_nil_or_concat names with rfl | ⟨init, last, rfl⟩
  · have hroot : (ofNames []).text = "/" := by decide
    simp [hroot]
  · rw [List.concat_eq_append] at h ⊢
    have htext := toList_ofNames_concat (fun n hn => h n (List.mem_append_left _ hn))
      (h last (by simp))
    have hlast : (Segment.name last).Plain := h last (by simp)
    have hslash : (ofNames (init ++ [last])).text.toList.getLast? ≠ some '/' := by
      rw [htext, ← List.singleton_append, ← List.append_assoc]
      exact getLast?_append_text hlast _
    have hne : init ++ [last] ≠ [] := List.append_ne_nil_of_right_ne_nil _ (List.cons_ne_nil _ _)
    simp only [if_neg (not_or.mpr ⟨toList_ofNames_ne_nil h, hslash⟩), if_neg hne]
    simp

/-- A dot at the end of a path means nothing. -/
theorem trimEnd_append_here {cs : List Char} (h : cs ≠ []) :
    trimEnd 1 (cs ++ ['/', '.']) = trimEnd 1 cs := by
  have hlength := List.length_pos_iff.mpr h
  have hlast : lastPart ((cs ++ ['/', '.']).drop 1) = ['.'] := by
    rw [List.drop_append_of_le_length hlength]
    exact lastPart_append_slash _ (by decide)
  have hcut : max 1 ((cs ++ ['/', '.']).length - ['.'].length - 1) = cs.length := by
    simp only [List.length_append, List.length_cons, List.length_nil]
    omega
  rw [trimEnd, if_neg (by rw [List.length_append]; simp)]
  simp only [hlast, dropLastPart, hcut, List.take_left, or_true, if_true]

/-- **The directory of a name that is spelled in this way** is the one it is spelled from. -/
theorem parent?_hereIn (h : ∀ n ∈ names ++ [name], IsName n) :
    (hereIn names name).parent? = some (ofNames names) := by
  have hinit := fun n hn => h n (List.mem_append_left _ hn)
  obtain ⟨hne, hdot, -, hslash⟩ := h name (by simp)
  have htext := toList_hereIn hinit name
  have habsolute := isAbsolute_join (isAbsolute_ofNames hinit) ⟨"./" ++ name⟩
  have hhead : headLength (hereIn names name).text.toList = 1 := headLength_of_isAbsolute habsolute
  generalize hbefore : (if names = [] then [] else (ofNames names).text.toList) = before at htext
  have hlast : lastPart ((hereIn names name).text.toList.drop 1) = name.toList := by
    rw [htext, List.drop_append_of_le_length (by simp)]
    exact lastPart_append_slash _ hslash
  -- the dot before the name means nothing, and is left out with the name
  have hdirectory : dropLastPart 1 (hereIn names name).text.toList = before ++ ['/', '.'] := by
    have hlength : max 1 ((hereIn names name).text.toList.length - name.toList.length - 1) =
        (before ++ ['/', '.']).length := by
      rw [htext]
      simp only [List.length_append, List.length_cons, List.length_nil]
      omega
    unfold dropLastPart
    simp only [hlast, hlength]
    rw [htext, List.take_left]
  have htrimmed : trimEnd 1 (before ++ ['/', '.']) = (ofNames names).text.toList := by
    subst hbefore
    split
    · rename_i hnil
      rw [hnil]
      decide +kernel
    · rw [trimEnd_append_here (toList_ofNames_ne_nil hinit), trimEnd_ofNames hinit]
  have hlong : 1 < (hereIn names name).text.toList.length := by
    rw [htext]
    simp
    omega
  unfold parent?
  simp only [hhead, trimEnd_of_name (hlast ▸ hne) (hlast ▸ hdot), if_pos hlong, hdirectory,
    htrimmed, String.ofList_toList]

theorem sourceStem?_js (stem : String) : sourceStem? (stem ++ ".js") = some stem := by
  have hlength : (stem ++ ".js").length - 3 = stem.toList.length := by
    rw [String.length_append, String.length_toList]
    exact Nat.add_sub_cancel ..
  rw [sourceStem?, if_pos (endsWith_append_self stem ".js"), hlength, String.toList_append,
    List.take_left, String.ofList_toList]

/-! ## What a name of emitted code means -/

/-- The sources that emitted code with some stem may come from, in the order in which they are
tried. -/
def sourcesOf (names : List String) (stem : String) : List Path :=
  ["ts", "tsx", "d.ts"].map fun e => ofNames (names ++ [stem ++ "." ++ e])

theorem isName_js (hstem : IsName stem) : IsName (stem ++ ".js") := by
  have hname : IsName (stem ++ "." ++ "js") := isName_suffix hstem.2.2.2 (by decide)
  rwa [String.append_assoc] at hname

theorem probeSource?_hereIn (h : ∀ n ∈ names, IsName n) (hstem : IsName stem) :
    probeSource? disk (hereIn names (stem ++ ".js")) = (sourcesOf names stem).find? disk.isFile := by
  have hnames := isName_concat h (isName_js hstem)
  have hstems := isName_concat h hstem
  have hnormal := normalize_ofNames hstems
  have hsources : ["ts", "tsx", "d.ts"].map (withSuffix (ofNames (names ++ [stem]))) =
      sourcesOf names stem := by
    refine List.map_congr_left fun e he => ?_
    have hextension : e ∈ extensions := by
      have hsubset : ∀ e ∈ ["ts", "tsx", "d.ts"], e ∈ extensions := by decide
      exact hsubset e he
    rw [withSuffix_ofNames hstems hextension, suffixed_concat]
  rw [probeSource?, fileName?_hereIn hnames, parent?_hereIn hnames]
  simp only [Option.bind_eq_bind, Option.bind_some, sourceStem?_js, Option.getD_some, ofNames_join,
    hnormal, hsources]

/-- **What the name of emitted code means:** the first file among what the name may mean as it is and
the sources that the code may come from. -/
theorem resolve_here_js (resolver : ModuleResolver) (disk : Disk) (h : ∀ n ∈ names, IsName n)
    (hstem : IsName stem) :
    resolver.resolve disk (ofNames names) ("./" ++ (stem ++ ".js")) =
      ((candidates (ofNames (names ++ [stem ++ ".js"])) ++ sourcesOf names stem).find?
        disk.isFile).elim (.error (.notFound ("./" ++ (stem ++ ".js")) (ofNames names))) .ok := by
  have hnames := isName_concat h (isName_js hstem)
  have hcandidates :=
    candidates_congr ((normalize_hereIn hnames).trans (normalize_ofNames hnames).symm)
  rw [resolve_of_isPath resolver disk _ (isPath_here _), ← hereIn, probe?, hcandidates,
    probeSource?_hereIn h hstem, List.find?_append]

/-- **A tracked file has the name of a source.** -/
theorem exists_name_of_isTracked {p : Path} (h : isTracked p = true) :
    ∃ name source, p.fileName? = some name ∧ source ∈ ["ts", "tsx"] ∧
      name = stemOf name ++ "." ++ source := by
  unfold isTracked Path.extension? at h
  cases hfile : p.fileName? with
  | none =>
    rw [hfile] at h
    contradiction
  | some name =>
    rw [hfile, Option.bind_some] at h
    cases hsplit : (splitName name.toList).2 with
    | none =>
      rw [hsplit] at h
      contradiction
    | some extension =>
      rw [hsplit] at h
      refine ⟨name, String.ofList extension, rfl, by simpa using h, ?_⟩
      refine String.toList_inj.mp ((toList_of_splitName hsplit).trans ?_)
      simp [stemOf]

theorem isTracked_ofNames_concat (h : ∀ n ∈ names ++ [name ++ "." ++ extension], IsName n)
    (hname : name.toList ≠ []) (hdot : '.' ∉ extension.toList) :
    isTracked (ofNames (names ++ [name ++ "." ++ extension])) =
      (extension == "ts" || extension == "tsx") := by
  rw [isTracked, extension?_ofNames_concat h hname hdot]

theorem isTracked_of_mem_sourcesOf (h : ∀ n ∈ names, IsName n) (hstem : IsName stem) {p : Path}
    (hp : p ∈ sourcesOf names stem) : isTracked p = true := by
  have hnames (e : String) (he : e ∈ extensions) := isName_concat h (isName_suffix hstem.2.2.2 he)
  have hdeclaration : stem ++ "." ++ "d.ts" = stem ++ ".d" ++ "." ++ "ts" := by
    rw [String.append_assoc, String.append_assoc, String.append_assoc]
    exact congrArg (stem ++ ·) (by decide)
  simp only [sourcesOf, List.map_cons, List.map_nil, List.mem_cons, List.not_mem_nil,
    or_false] at hp
  rcases hp with rfl | rfl | rfl
  · exact isTracked_ofNames_concat (hnames "ts" (by decide)) hstem.1 (by decide)
  · exact isTracked_ofNames_concat (hnames "tsx" (by decide)) hstem.1 (by decide)
  · have hnames := hnames "d.ts" (by decide)
    rw [hdeclaration] at hnames ⊢
    exact isTracked_ofNames_concat hnames (by simp) (by decide)

/-- **The source of emitted code is found unless something else is found first.**  If a source is
there, the name of the code means a file.  This is a source if nothing is there that the name may
mean as it is; if the code itself is there, without a file that has its name and one more extension,
it is the code, which is not tracked. -/
theorem resolve_emitted_name (resolver : ModuleResolver) (disk : Disk) (h : ∀ n ∈ names, IsName n)
    (hstem : IsName stem) (hsource : ∃ p ∈ sourcesOf names stem, disk.isFile p = true) :
    ∃ target,
      resolver.resolve disk (ofNames names) ("./" ++ (stem ++ ".js")) = .ok target ∧
      (candidates (ofNames (names ++ [stem ++ ".js"])) ++ sourcesOf names stem).find?
        disk.isFile = some target ∧
      ((∀ p ∈ candidates (ofNames (names ++ [stem ++ ".js"])), disk.isFile p = false) →
        target ∈ sourcesOf names stem ∧ isTracked target = true) ∧
      (disk.isFile (ofNames (names ++ [stem ++ ".js"])) = true →
        (∀ e ∈ extensions,
          disk.isFile (withSuffix (ofNames (names ++ [stem ++ ".js"])) e) = false) →
        target = ofNames (names ++ [stem ++ ".js"]) ∧ isTracked target = false) := by
  have hresolve := resolve_here_js resolver disk h hstem
  cases hfound : (candidates (ofNames (names ++ [stem ++ ".js"])) ++ sourcesOf names stem).find?
      disk.isFile with
  | none =>
    obtain ⟨p, hp, hfile⟩ := hsource
    have hnone := List.find?_eq_none.mp hfound p (List.mem_append_right _ hp)
    exact absurd hfile hnone
  | some target =>
    refine ⟨target, by rw [hresolve, hfound, Option.elim_some], rfl, fun hnone => ?_,
      fun hcode hsuffixed => ?_⟩
    · have hmem : target ∈ sourcesOf names stem := by
        refine (List.mem_append.mp (List.mem_of_find?_eq_some hfound)).resolve_left fun hc => ?_
        have hfile := List.find?_some hfound
        rw [hnone target hc] at hfile
        contradiction
      exact ⟨hmem, isTracked_of_mem_sourcesOf h hstem hmem⟩
    · have hnames := isName_concat h (isName_js hstem)
      have hnormal := normalize_ofNames hnames
      have hnone : (extensions.map (withSuffix (ofNames (names ++ [stem ++ ".js"])))).find?
          disk.isFile = none := by
        rw [List.find?_eq_none]
        intro p hp
        obtain ⟨e, he, rfl⟩ := List.mem_map.mp hp
        rw [hsuffixed e he]
        exact Bool.false_ne_true
      have htarget : ofNames (names ++ [stem ++ ".js"]) = target := by
        unfold candidates at hfound
        simp only [hnormal, List.append_assoc, List.find?_append, hnone, Option.none_or,
          List.find?_singleton, hcode, if_true, Option.some_or] at hfound
        exact Option.some.inj hfound
      have hcodeName : IsName (stem ++ "." ++ "js") := isName_suffix hstem.2.2.2 (by decide)
      have htracked := isTracked_ofNames_concat (isName_concat h hcodeName) hstem.1 (by decide)
      rw [String.append_assoc] at htracked
      exact ⟨htarget.symm, htarget ▸ htracked⟩

end Resolution

end TypeScriptEngine
