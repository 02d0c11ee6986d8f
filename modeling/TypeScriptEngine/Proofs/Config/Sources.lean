import TypeScriptEngine.Config.Sources
import TypeScriptEngine.Proofs.Glob.Directory
import TypeScriptEngine.Proofs.Path.Absolute
import TypeScriptEngine.Proofs.Path.Set

/-! # Directories among the included patterns

A pattern that is the relative path of some names is expanded to the same pattern however it is
spelled (`IsEntry.expandDirectory_eq`), and means what lies below the directory of these names
(`IsEntry.means_directory`).  So a project owns the sources below the directories that it includes
(`included_directory`).

Whether an entry is a directory is told by its text and not by the tree.  If the last name has an
extension, the entry means a file of that name (`IsEntry.means_file`), even where there is a
directory.
-/

namespace TypeScriptEngine

open Segment

/-! ## Relative paths of names -/

namespace Path

/-- The relative path that passes some names. -/
def relative (names : List String) : Path := ⟨"/".intercalate names⟩

variable {names : List String}

theorem toList_relative_cons (first : String) (names : List String) :
    (relative (first :: names)).text.toList =
      first.toList ++ spellBehind (names.map .name) := by
  unfold relative
  induction names generalizing first with
  | nil => simp [spellBehind]
  | cons second names ih =>
    rw [String.intercalate_cons_cons, String.toList_append, String.toList_append, ih]
    simp [spellBehind, Segment.text]

theorem toList_relative_append {names' : List String} (h : names ≠ []) (h' : names' ≠ []) :
    (relative (names ++ names')).text.toList =
      (relative names).text.toList ++ '/' :: (relative names').text.toList := by
  unfold relative
  rw [String.intercalate_append_of_ne_nil h h']
  simp

/-- A path of names has no slash at its end. -/
theorem getLast?_relative (h : ∀ name ∈ names, IsName name) (hne : names ≠ []) :
    (relative names).text.toList.getLast? ≠ some '/' := by
  rcases List.eq_nil_or_concat names with rfl | ⟨init, last, rfl⟩
  · contradiction
  rw [List.concat_eq_append] at h ⊢
  have hlast : (Segment.name last).Plain := h last (by simp)
  have hlone : (relative [last]).text = last := by simp [relative]
  by_cases hinit : init = []
  · rw [hinit, List.nil_append, hlone]
    exact getLast?_append_text hlast []
  · rw [toList_relative_append hinit (List.cons_ne_nil _ _), hlone, ← List.singleton_append,
      ← List.append_assoc]
    exact getLast?_append_text hlast _

/-! ## Sets of normal paths -/

/-- In a set of normal paths are those that it is made of. -/
theorem mem_setOf {ps : List Path} (h : ∀ p ∈ ps, p.IsNormal) {p : Path} :
    p ∈ setOf ps ↔ p ∈ ps := by
  refine ⟨mem_of_mem_setOf, fun hp => ?_⟩
  have hin : Graph.isIn p (setOf ps) = true := by
    rw [isIn_setOf]
    exact isIn_of_mem hp
  obtain ⟨q, hq, he⟩ := isIn_iff.mp hin
  have hqp : q = p := (h q (mem_of_mem_setOf hq)).eq_of_beq (h p hp) he
  exact hqp ▸ hq

end Path

namespace Config

open Glob (IsPlain withoutHere)

/-! ## Spellings of a directory -/

/-- A text spells the relative path that passes some names: behind any number of dots for the
current directory, and with any number of slashes at its end. -/
def Spells (spelling : String) (names : List String) : Prop :=
  ∃ here slashes, spelling.toList =
    (List.replicate here ['.', '/']).flatten ++ (Path.relative names).text.toList ++
      List.replicate slashes '/'

/-- A pattern is the relative path of names that have no signs of the pattern language.  White space
at its ends would be no part of it. -/
structure IsEntry (pattern : String) (names : List String) : Prop where
  names_ne_nil : names ≠ []
  isName : ∀ name ∈ names, IsName name
  isPlain : ∀ name ∈ names, ∀ c ∈ name.toList, IsPlain c
  spells : Spells pattern names
  trimmed : Text.trim pattern.toList = pattern.toList

variable {names : List String} {pattern : String}

theorem withoutHere_replicate (here : Nat) (cs : List Char) :
    withoutHere ((List.replicate here ['.', '/']).flatten ++ cs) = withoutHere cs := by
  induction here with
  | zero => rfl
  | succ here ih =>
    rw [List.replicate_succ, List.flatten_cons]
    exact ih

/-- A name at the head of a pattern is no dot. -/
theorem withoutHere_name {name : String} (h : IsName name) (cs : List Char) :
    withoutHere (name.toList ++ cs) = name.toList ++ cs := by
  obtain ⟨hne, hdot, -, hslash⟩ := h
  unfold withoutHere
  split
  · rename_i rest he
    cases hname : name.toList with
    | nil => exact absurd hname hne
    | cons c name =>
      rw [hname, List.cons_append, List.cons.injEq] at he
      cases name with
      | nil => exact absurd (he.1 ▸ hname) hdot
      | cons d name =>
        have hd : d = '/' := (List.cons.inj he.2).1
        exact absurd (hname ▸ hd ▸ by simp) hslash
  · rfl

theorem trimSlashes_replicate {cs : List Char} (h : cs.getLast? ≠ some '/') (slashes : Nat) :
    trimSlashes (cs ++ List.replicate slashes '/') = cs := by
  have hdrop : cs.reverse.dropWhile (· == '/') = cs.reverse := by
    cases hcs : cs.reverse with
    | nil => rfl
    | cons c ds =>
      have hc : c ≠ '/' := by
        rintro rfl
        exact h (by rw [List.getLast?_eq_head?_reverse, hcs, List.head?_cons])
      rw [List.dropWhile_cons_of_neg (by simpa using hc)]
  rw [trimSlashes, List.reverse_append, List.dropWhile_append_of_pos, hdrop, List.reverse_reverse]
  intro c hc
  rw [List.reverse_replicate] at hc
  simp [List.eq_of_mem_replicate hc]

theorem isPlain_relative (h : ∀ name ∈ names, ∀ c ∈ name.toList, IsPlain c) :
    ∀ c ∈ (Path.relative names).text.toList, IsPlain c := by
  cases names with
  | nil => simp [Path.relative]
  | cons first names =>
    intro c hc
    rw [Path.toList_relative_cons, List.mem_append] at hc
    rcases hc with hc | hc
    · exact h first (List.mem_cons_self ..) c hc
    · obtain ⟨s, hs, hc⟩ := List.mem_flatMap.mp hc
      obtain ⟨name, hname, rfl⟩ := List.mem_map.mp hs
      rcases List.mem_cons.mp hc with rfl | hc
      · decide
      · exact h name (List.mem_cons_of_mem _ hname) c hc

theorem IsEntry.toList_ne_nil (h : IsEntry pattern names) :
    (Path.relative names).text.toList ≠ [] := by
  obtain ⟨first, rest, rfl⟩ := List.exists_cons_of_ne_nil h.names_ne_nil
  rw [Path.toList_relative_cons]
  simp [(h.isName first (List.mem_cons_self ..)).1]

/-- **However an entry is spelled, it is expanded to the names and, unless they end in an extension,
to all that lies below.** -/
theorem IsEntry.expandDirectory_eq (h : IsEntry pattern names) :
    expandDirectory (withoutHere (Text.trim pattern.toList)) = (Path.relative names).text.toList ++
      if (Path.relative names).extension?.isSome then [] else "/**/*".toList := by
  have hdirectory := h.toList_ne_nil
  obtain ⟨hne, hnames, hplain, ⟨here, slashes, hspells⟩, htrimmed⟩ := h
  obtain ⟨first, rest, rfl⟩ := List.exists_cons_of_ne_nil hne
  have hfirst := hnames first (List.mem_cons_self ..)
  have hhere : withoutHere pattern.toList =
      (Path.relative (first :: rest)).text.toList ++ List.replicate slashes '/' := by
    rw [hspells, List.append_assoc, withoutHere_replicate, Path.toList_relative_cons,
      List.append_assoc, withoutHere_name hfirst]
  have hslashes := trimSlashes_replicate (Path.getLast?_relative hnames hne) slashes
  have hwild : (withoutHere pattern.toList).any ['*', '?', '[', ']'].contains = false := by
    rw [hhere, List.any_eq_false]
    intro c hc
    have hc : IsPlain c := by
      rcases List.mem_append.mp hc with hc | hc
      · exact isPlain_relative hplain c hc
      · exact List.eq_of_mem_replicate hc ▸ by decide
    simp [IsPlain] at hc ⊢
    tauto
  rw [htrimmed]
  unfold expandDirectory
  rw [hwild, hhere]
  simp only [hslashes, String.ofList_toList, List.isEmpty_iff, List.append_eq_nil_iff, hdirectory,
    false_and, if_false, Bool.or_false]
  split
  · rw [List.append_nil]
  · rfl

theorem readPattern_eq_ok {tokens : List GlobToken} {cs : List Char}
    (hcs : expandDirectory (withoutHere (Text.trim pattern.toList)) = cs) (hne : cs ≠ [])
    (htokens : Glob.ofText (String.ofList cs) = .ok tokens) :
    readPattern pattern = .ok (some tokens) := by
  rw [readPattern, hcs]
  split
  · contradiction
  · rw [htokens]

/-- An entry without extension is read as what lies below the directory. -/
theorem IsEntry.readPattern_directory (h : IsEntry pattern names)
    (hextension : (Path.relative names).extension? = none) :
    readPattern pattern =
      .ok (some ((Path.relative names).text.toList.map .literal ++ [.innerSegments, .star])) := by
  have hexpand := h.expandDirectory_eq
  rw [hextension, if_neg (by simp)] at hexpand
  exact readPattern_eq_ok hexpand (by simp)
    (Glob.ofText_below (isPlain_relative h.isPlain))

/-- An entry with an extension is read as the path of a file. -/
theorem IsEntry.readPattern_file (h : IsEntry pattern names) {extension : String}
    (hextension : (Path.relative names).extension? = some extension) :
    readPattern pattern = .ok (some ((Path.relative names).text.toList.map .literal)) := by
  have hexpand := h.expandDirectory_eq
  rw [hextension, if_pos Option.isSome_some, List.append_nil] at hexpand
  exact readPattern_eq_ok hexpand h.toList_ne_nil (Glob.ofText_plain (isPlain_relative h.isPlain))

/-! ## Patterns together -/

/-- A pattern can be read. -/
def Readable (pattern : String) : Prop := ∃ tokens, readPattern pattern = .ok tokens

/-- A pattern means a file: it is read, and matches the path of the file. -/
def Means (pattern : String) (file : Path) : Prop :=
  ∃ tokens, readPattern pattern = .ok (some tokens) ∧
    Glob.matchesText false tokens file.slashed = true

instance (pattern : String) : Decidable (Readable pattern) :=
  match h : readPattern pattern with
  | .ok tokens => isTrue ⟨tokens, h⟩
  | .error _ => isFalse fun ⟨_, htokens⟩ => by simp [h] at htokens

instance (pattern : String) (file : Path) : Decidable (Means pattern file) :=
  match h : readPattern pattern with
  | .ok (some tokens) =>
    if hmatch : Glob.matchesText false tokens file.slashed = true then isTrue ⟨tokens, h, hmatch⟩
    else isFalse fun ⟨_, htokens, hmatch'⟩ => by simp_all
  | .ok none | .error _ => isFalse fun ⟨_, htokens, _⟩ => by simp [h] at htokens

theorem means_iff {tokens : List GlobToken} (h : readPattern pattern = .ok (some tokens))
    (file : Path) : Means pattern file ↔ Glob.matchesText false tokens file.slashed = true := by
  constructor
  · rintro ⟨tokens', htokens', hmatch⟩
    rw [h] at htokens'
    cases htokens'
    exact hmatch
  · exact fun hmatch => ⟨tokens, h, hmatch⟩

/-- **An entry without extension means what lies below the directory.** -/
theorem IsEntry.means_directory (h : IsEntry pattern names)
    (hextension : (Path.relative names).extension? = none) (file : Path) :
    Means pattern file ↔
      ∃ deeper, file.text.toList = (Path.relative names).text.toList ++ '/' :: deeper := by
  rw [means_iff (h.readPattern_directory hextension)]
  exact Glob.matchesText_below _ _

/-- **An entry with an extension means the file that it spells.** -/
theorem IsEntry.means_file (h : IsEntry pattern names) {extension : String}
    (hextension : (Path.relative names).extension? = some extension) (file : Path) :
    Means pattern file ↔ file.text = (Path.relative names).text := by
  rw [means_iff (h.readPattern_file hextension), ← String.toList_inj]
  exact Glob.matchesText_literals _ _

/-- A pattern that cannot be read is an error that names it. -/
theorem exists_cause (h : ¬ Readable pattern) :
    ∃ cause, readPattern pattern = .error (.badPattern pattern cause) := by
  have hnone : ∀ tokens, readPattern pattern ≠ .ok tokens := fun tokens htokens => h ⟨tokens, htokens⟩
  unfold readPattern at hnone ⊢
  split at hnone
  · exact absurd rfl (hnone none)
  · split at hnone
    · exact absurd rfl (hnone _)
    · exact ⟨_, rfl⟩

/-- **Patterns of which one cannot be read** fail with an error that names such a pattern. -/
theorem readPatterns_eq_error {patterns : List String}
    (h : ∃ pattern ∈ patterns, ¬ Readable pattern) :
    ∃ bad ∈ patterns, ∃ cause, readPattern bad = .error (.badPattern bad cause) ∧
      readPatterns patterns = .error (.badPattern bad cause) := by
  suffices hall : ∃ bad ∈ patterns, ∃ cause, readPattern bad = .error (.badPattern bad cause) ∧
      patterns.mapM readPattern = .error (.badPattern bad cause) by
    obtain ⟨bad, hbad, cause, hread, hall⟩ := hall
    exact ⟨bad, hbad, cause, hread, by rw [readPatterns, hall]; rfl⟩
  obtain ⟨pattern, hpattern, hunreadable⟩ := h
  induction patterns with
  | nil => contradiction
  | cons first patterns ih =>
    by_cases hfirst : Readable first
    · obtain ⟨tokens, htokens⟩ := hfirst
      have hne : pattern ≠ first := fun he => hunreadable ⟨tokens, he ▸ htokens⟩
      obtain ⟨bad, hbad, cause, hread, hrest⟩ := ih ((List.mem_cons.mp hpattern).resolve_left hne)
      refine ⟨bad, List.mem_cons_of_mem _ hbad, cause, hread, ?_⟩
      rw [List.mapM_cons, htokens, hrest]
      rfl
    · obtain ⟨cause, hcause⟩ := exists_cause hfirst
      refine ⟨first, List.mem_cons_self .., cause, hcause, ?_⟩
      rw [List.mapM_cons, hcause]
      rfl

/-- Patterns that can be read one by one can be read together. -/
theorem exists_readPatterns {patterns : List String}
    (h : ∀ pattern ∈ patterns, Readable pattern) :
    ∃ read, readPatterns patterns = .ok read ∧
      ∀ file, anyMatches read file = true ↔ ∃ pattern ∈ patterns, Means pattern file := by
  have hall : ∃ all, patterns.mapM readPattern = .ok all ∧
      ∀ tokens, some tokens ∈ all ↔
        ∃ pattern ∈ patterns, readPattern pattern = .ok (some tokens) := by
    induction patterns with
    | nil => exact ⟨[], rfl, by simp⟩
    | cons pattern patterns ih =>
      obtain ⟨first, hfirst⟩ := h pattern (List.mem_cons_self ..)
      obtain ⟨rest, hrest, hmem⟩ := ih fun p hp => h p (List.mem_cons_of_mem _ hp)
      refine ⟨first :: rest, ?_, fun tokens => ?_⟩
      · rw [List.mapM_cons, hfirst, hrest]
        rfl
      · rw [List.mem_cons, hmem]
        simp [hfirst, eq_comm]
  obtain ⟨all, hread, hmem⟩ := hall
  refine ⟨all.filterMap id, by rw [readPatterns, hread]; rfl, fun file => ?_⟩
  rw [anyMatches, List.any_eq_true]
  constructor
  · rintro ⟨tokens, htokens, hmatch⟩
    obtain ⟨pattern, hpattern, htokens⟩ := (hmem tokens).mp (by simpa using htokens)
    exact ⟨pattern, hpattern, tokens, htokens, hmatch⟩
  · rintro ⟨pattern, hpattern, tokens, htokens, hmatch⟩
    have hall := (hmem tokens).mpr ⟨pattern, hpattern, htokens⟩
    exact ⟨tokens, by simpa using hall, hmatch⟩

end Config

namespace ProjectConfig

open Config

/-- The patterns of what is left out. -/
def excludedPatterns (config : ProjectConfig) : List String :=
  config.excluded.getD config.standardExcluded

variable {config : ProjectConfig} {disk : Disk} {patterns : List String}

/-- With including patterns, sources are found with these and the excluding ones, read in this order. -/
theorem sources_eq (disk : Disk) (hincluded : config.included = some patterns) :
    config.sources disk = (readPatterns patterns).bind fun included =>
      (readPatterns config.excludedPatterns).bind fun excluded =>
        .ok (Path.setOf (config.listedFiles ++
          ((disk.filesBelow config.directory).filter fun file =>
            isSource file && anyMatches included file && !anyMatches excluded file).map
              fun file => (config.directory.join file).normalize)) := by
  unfold sources
  rw [if_neg (by simp [hincluded]), hincluded]
  rfl

/-- **The sources of a project whose patterns can be read** are the files that it lists, and those
below its directory that an including pattern means and no excluding one. -/
theorem exists_sources (disk : Disk) (hincluded : config.included = some patterns)
    (hread : ∀ pattern ∈ patterns ++ config.excludedPatterns, Readable pattern) :
    ∃ files, config.sources disk = .ok files ∧
      ∀ path, path ∈ files ↔ path ∈ config.listedFiles ∨
        ∃ file ∈ disk.filesBelow config.directory, isSource file = true ∧
          (∃ pattern ∈ patterns, Means pattern file) ∧
          (∀ pattern ∈ config.excludedPatterns, ¬ Means pattern file) ∧
          path = (config.directory.join file).normalize := by
  obtain ⟨included, hincludes, hmeans⟩ := exists_readPatterns fun pattern hpattern =>
    hread pattern (List.mem_append_left _ hpattern)
  obtain ⟨excluded, hexcludes, hleaves⟩ := exists_readPatterns fun pattern hpattern =>
    hread pattern (List.mem_append_right _ hpattern)
  let found := (disk.filesBelow config.directory).filter fun file =>
    isSource file && anyMatches included file && !anyMatches excluded file
  let files := config.listedFiles ++ found.map fun file => (config.directory.join file).normalize
  have hsources : config.sources disk = .ok (Path.setOf files) := by
    rw [sources_eq disk hincluded, hincludes, hexcludes]
    rfl
  have hnormal : ∀ path ∈ files, path.IsNormal := by
    intro path hpath
    rcases List.mem_append.mp hpath with hpath | hpath
    all_goals
      obtain ⟨file, -, rfl⟩ := List.mem_map.mp hpath
      exact Path.isNormal_normalize _
  refine ⟨_, hsources, fun path => ?_⟩
  rw [Path.mem_setOf hnormal, List.mem_append, List.mem_map]
  refine or_congr_right (exists_congr fun file => ?_)
  have hexcluded : anyMatches excluded file = false ↔
      ∀ pattern ∈ config.excludedPatterns, ¬ Means pattern file := by
    rw [← Bool.not_eq_true, hleaves]
    simp only [not_exists, not_and]
  rw [List.mem_filter, Bool.and_eq_true, Bool.and_eq_true, hmeans, Bool.not_eq_true', hexcluded]
  constructor
  · rintro ⟨⟨hfile, ⟨hsource, hin⟩, hout⟩, rfl⟩
    exact ⟨hfile, hsource, hin, hout, rfl⟩
  · rintro ⟨hfile, hsource, hin, hout, rfl⟩
    exact ⟨⟨hfile, ⟨hsource, hin⟩, hout⟩, rfl⟩

/-- **A project with a pattern that cannot be read has no sources:** the search for them fails with an
error that names such a pattern. -/
theorem sources_eq_error (disk : Disk) (hincluded : config.included = some patterns)
    (h : ∃ pattern ∈ patterns ++ config.excludedPatterns, ¬ Readable pattern) :
    ∃ bad ∈ patterns ++ config.excludedPatterns, ∃ cause,
      readPattern bad = .error (.badPattern bad cause) ∧
      config.sources disk = .error (.badPattern bad cause) := by
  rw [sources_eq disk hincluded]
  by_cases hincludes : ∀ pattern ∈ patterns, Readable pattern
  · obtain ⟨included, hread, -⟩ := exists_readPatterns hincludes
    obtain ⟨pattern, hpattern, hunreadable⟩ := h
    have hexcluded := (List.mem_append.mp hpattern).resolve_left fun hp =>
      hunreadable (hincludes pattern hp)
    obtain ⟨bad, hbad, cause, hcause, hexcludes⟩ :=
      readPatterns_eq_error ⟨pattern, hexcluded, hunreadable⟩
    exact ⟨bad, List.mem_append_right _ hbad, cause, hcause, by rw [hread, hexcludes]; rfl⟩
  · obtain ⟨bad, hbad, cause, hcause, hincludes⟩ :=
      readPatterns_eq_error (by simpa using hincludes)
    exact ⟨bad, List.mem_append_left _ hbad, cause, hcause, by rw [hincludes]; rfl⟩

/-- A file of the tree is found below the directory that holds it. -/
theorem mem_filesBelow {directory : Path} {place names : List String} {time modified : Nat}
    {text : Option String} (h : disk.lookUp directory = .ok (place, .directory time))
    (hfile : (place ++ names, .file text modified) ∈ disk.entries) :
    Path.relative names ∈ disk.filesBelow directory := by
  have hbelow : Disk.namesBelow? place (place ++ names) = some names := by
    rw [Disk.namesBelow?, if_pos (by simp), List.drop_left]
  rw [Disk.filesBelow, h]
  exact List.mem_filterMap.mpr ⟨_, hfile, by simp [hbelow, Path.relative]⟩

/-- **A project has the sources below a directory that it includes,** but for those that are left out, if
all its patterns can be read and the last name of the directory has no extension; an entry whose last
name has one means one file.  Otherwise the search for sources fails with an error that names a pattern
which cannot be read. -/
theorem included_directory (disk : Disk) (hincluded : config.included = some patterns) :
    ((∀ pattern ∈ patterns ++ config.excludedPatterns, Readable pattern) →
      ∃ files, config.sources disk = .ok files ∧
        ∀ pattern ∈ patterns, ∀ names, IsEntry pattern names →
          ((Path.relative names).extension? = none →
            ∀ place time deeper text modified,
              disk.lookUp config.directory = .ok (place, .directory time) → deeper ≠ [] →
              (place ++ (names ++ deeper), .file text modified) ∈ disk.entries →
              isSource (Path.relative (names ++ deeper)) = true →
              (∀ pattern ∈ config.excludedPatterns,
                ¬ Means pattern (Path.relative (names ++ deeper))) →
              (config.directory.join (Path.relative (names ++ deeper))).normalize ∈ files) ∧
          ((Path.relative names).extension? ≠ none →
            ∀ file, Means pattern file ↔ file.text = (Path.relative names).text)) ∧
    ((∃ pattern ∈ patterns ++ config.excludedPatterns, ¬ Readable pattern) →
      ∃ bad ∈ patterns ++ config.excludedPatterns, ∃ cause,
        readPattern bad = .error (.badPattern bad cause) ∧
        config.sources disk = .error (.badPattern bad cause)) := by
  refine ⟨fun hread => ?_, sources_eq_error disk hincluded⟩
  obtain ⟨files, hfiles, hmem⟩ := exists_sources disk hincluded hread
  refine ⟨files, hfiles, fun pattern hpattern names hentry => ⟨?_, ?_⟩⟩
  · intro hextension place time deeper text modified hplace hdeeper hfile hsource hexcluded
    have hbelow : Means pattern (Path.relative (names ++ deeper)) := by
      rw [hentry.means_directory hextension]
      exact ⟨_, Path.toList_relative_append hentry.names_ne_nil hdeeper⟩
    exact (hmem _).mpr (Or.inr ⟨_, mem_filesBelow hplace hfile, hsource,
      ⟨pattern, hpattern, hbelow⟩, hexcluded, rfl⟩)
  · intro hextension file
    obtain ⟨extension, hextension⟩ := Option.ne_none_iff_exists'.mp hextension
    exact hentry.means_file hextension file

/-- A tree with a source in each of some directories. -/
def sampleTree : Disk where
  workingDir := []
  entries := [(["w"], .directory 0), (["w", "src"], .directory 0),
    (["w", "src", "a.ts"], .file (some "") 0), (["w", "v1.0"], .directory 0),
    (["w", "v1.0", "a.ts"], .file (some "") 0), (["w", "a\x7bb"], .directory 0),
    (["w", "a\x7bb", "a.ts"], .file (some "") 0), (["w", "b "], .directory 0),
    (["w", "b ", "a.ts"], .file (some "") 0)]

/-- A project of the tree that includes some patterns. -/
def including (patterns : List String) : ProjectConfig where
  path := ⟨"/w/tsconfig.json"⟩
  directory := ⟨"/w"⟩
  options := {}
  files := none
  included := some patterns
  excluded := none
  references := []

/-- The directory `src` owns its source, and beside a class that is not closed nothing is found. -/
theorem included_directory_src :
    (∃ files, (including ["./src/"]).sources sampleTree = .ok files ∧ ⟨"/w/src/a.ts"⟩ ∈ files) ∧
    ∃ bad ∈ ["./src/", "["] ++ (including []).excludedPatterns, ∃ cause,
      readPattern bad = .error (.badPattern bad cause) ∧
      (including ["./src/", "["]).sources sampleTree = .error (.badPattern bad cause) := by
  have hname : ∀ name ∈ ["src"], IsName name := by
    intro name hname
    rw [List.mem_singleton.mp hname]
    refine ⟨?_, ?_, ?_, ?_⟩ <;> decide
  have hplain : ∀ name ∈ ["src"], ∀ c ∈ name.toList, Glob.IsPlain c := by
    intro name hname c hc
    rw [List.mem_singleton.mp hname] at hc
    obtain rfl | rfl | rfl : c = 's' ∨ c = 'r' ∨ c = 'c' := by simpa using hc
    all_goals decide
  have hentry : IsEntry "./src/" ["src"] :=
    ⟨by decide, hname, hplain, ⟨1, 1, by decide +kernel⟩, by decide +kernel⟩
  have hincluded (patterns : List String) : (including patterns).included = some patterns := rfl
  obtain ⟨files, hfiles, howned⟩ :=
    (included_directory sampleTree (hincluded ["./src/"])).1 (by decide +kernel)
  obtain ⟨hbelow, -⟩ := howned "./src/" (List.mem_singleton_self _) ["src"] hentry
  refine ⟨⟨files, hfiles, hbelow (by decide +kernel) ["w"] 0 ["a.ts"] (some "") 0 rfl (by decide)
    (by decide +kernel) (by decide +kernel) (by decide +kernel)⟩, ?_⟩
  exact (included_directory sampleTree (hincluded ["./src/", "["])).2
    ⟨"[", by decide +kernel, by decide +kernel⟩

/-- The texts of the sources that are found for some patterns. -/
def foundFor (patterns : List String) : Option (List String) :=
  ((including patterns).sources sampleTree).toOption.map fun files => files.map Path.text

/-- The tree holds a source that no pattern leaves out in each directory, but none is found if the
name of the directory has an extension, a sign of the pattern language or white space at its end, if
another pattern cannot be read, or if the directory is the project's own. -/
theorem directories_missed :
    (∀ name ∈ ["src", "v1.0", "a\x7bb", "b "],
      (["w", name, "a.ts"], .file (some "") 0) ∈ sampleTree.entries ∧
      isSource (Path.relative [name, "a.ts"]) = true ∧
      ∀ pattern ∈ (including []).excludedPatterns,
        ¬ Means pattern (Path.relative [name, "a.ts"])) ∧
    foundFor ["v1.0"] = some [] ∧ foundFor ["a\x7bb"] = none ∧ foundFor ["b "] = some [] ∧
    foundFor ["src", "["] = none ∧ foundFor ["."] = some [] ∧ foundFor ["./"] = some [] := by
  decide +kernel

end ProjectConfig

end TypeScriptEngine
