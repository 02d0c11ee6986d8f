import Mathlib.Data.List.Flatten
import TypeScriptEngine.Proofs.Disk.Spelling
import TypeScriptEngine.Proofs.Path.Absolute

/-! # Reading along the normal path

The normal form of a path is found without looking at any file, while a path is looked up segment by
segment.  For a path that starts at the root the two agree: the names that are left when it is made
normal lead to the place that the walk ended at (`exists_names_of_walk`), since a segment `..` goes
back to a place that the walk has come through.  So what can be read along some spelling can be read
along the normal one (`read_normalize`).
-/

namespace TypeScriptEngine

open TypeScriptEngine.Path Segment

namespace Text

/-- A text is its parts, each behind a separator, up to the first separator. -/
theorem flatMap_splitOn (sep : Char) (cs : List Char) :
    (splitOn sep cs).flatMap (fun part => sep :: part) = sep :: cs := by
  induction cs with
  | nil => rfl
  | cons c cs ih =>
    rw [splitOn]
    split
    · rename_i hc
      rw [List.flatMap_cons, ih, hc]
      rfl
    · cases hcs : splitOn sep cs with
      | nil => exact absurd hcs (splitOn_ne_nil sep cs)
      | cons part parts =>
        rw [hcs, List.flatMap_cons, List.cons_append] at ih
        simp only
        rw [List.flatMap_cons, List.cons_append, List.cons_append, (List.cons.inj ih).2]

theorem byteLength_le_of_sublist {as bs : List Char} (h : as.Sublist bs) :
    byteLength as ≤ byteLength bs := by
  induction h with
  | slnil => exact Nat.le_refl _
  | cons c _ ih => exact Nat.le_trans ih (Nat.le_add_left _ _)
  | cons_cons c _ ih => exact Nat.add_le_add_left ih _

end Text

namespace Segment

/-- A segment is spelled by the part that it was found in. -/
theorem toList_text_of_ofPart? {part : List Char} {s : Segment} (h : ofPart? part = some s) :
    s.text.toList = part := by
  unfold ofPart? at h
  split at h
  · contradiction
  · split at h
    · rename_i hup
      obtain rfl := Option.some.inj h
      exact hup.symm ▸ rfl
    · obtain rfl := Option.some.inj h
      exact String.toList_ofList

end Segment

namespace Path

/-- Parts that are no segments are left out of the spelling. -/
theorem spellBehind_parts_sublist (parts : List (List Char)) :
    (spellBehind (parts.filterMap ofPart?)).Sublist (parts.flatMap fun part => '/' :: part) := by
  induction parts with
  | nil => exact List.Sublist.refl _
  | cons part parts ih =>
    cases hpart : ofPart? part with
    | none =>
      rw [List.filterMap_cons_none hpart, List.flatMap_cons]
      exact ih.trans (List.sublist_append_right _ _)
    | some s =>
      rw [List.filterMap_cons_some hpart, List.flatMap_cons, spellBehind, List.flatMap_cons,
        toList_text_of_ofPart? hpart]
      exact (List.Sublist.refl _).append ih

/-- The segments of an absolute path stand behind the root, and their spelling is part of the
text. -/
theorem exists_segments_of_isAbsolute {p : Path} (h : p.isAbsolute = true) :
    ∃ rest, p.segments = .root :: rest ∧ (∀ s ∈ rest, s.Plain) ∧
      (spellBehind rest).Sublist p.text.toList := by
  obtain ⟨cs, hcs, hsegments⟩ := exists_partsOf h
  refine ⟨partsOf cs, hsegments, fun _ => plain_of_mem_partsOf, ?_⟩
  rw [hcs, ← Text.flatMap_splitOn]
  exact spellBehind_parts_sublist _

/-- The spelling of a path of names. -/
theorem toList_ofNames {names : List String} (h : ∀ name ∈ names, IsName name) (hne : names ≠ []) :
    (ofNames names).text.toList = spellBehind (names.map .name) := by
  have hplain := plain_names h
  cases names with
  | nil => contradiction
  | cons first names =>
    exact toList_ofSegments_root (hplain _ (List.mem_cons_self ..))
      fun t ht => hplain t (List.mem_cons_of_mem _ ht)

/-- A path of names is not spelled like a directory. -/
theorem isDirectorySpelling_ofNames_concat {names : List String} {name : String}
    (h : ∀ name ∈ names, IsName name) (hname : IsName name) :
    Disk.isDirectorySpelling (ofNames (names ++ [name])).text.toList = false := by
  rw [toList_ofNames_concat h hname]
  generalize (if names = [] then [] else (ofNames names).text.toList) = before
  obtain ⟨hne, hdot, _, hslash⟩ := hname
  have hslash' : '/' ∉ name.toList.reverse := fun hmem => hslash (List.mem_reverse.mp hmem)
  unfold Disk.isDirectorySpelling
  rw [List.reverse_append, List.reverse_cons, List.append_assoc]
  cases hcs : name.toList.reverse with
  | nil => exact absurd (List.reverse_eq_nil_iff.mp hcs) hne
  | cons c cs =>
    rw [hcs] at hslash'
    have hc : c ≠ '/' := fun he => hslash' (he ▸ List.mem_cons_self ..)
    cases cs with
    | nil =>
      have hc' : c ≠ '.' := by
        rintro rfl
        have := congrArg List.reverse hcs
        rw [List.reverse_reverse] at this
        exact hdot this
      simp [hc, hc']
    | cons d cs =>
      have hd : d ≠ '/' := fun he =>
        hslash' (he ▸ List.mem_cons_of_mem _ (List.mem_cons_self ..))
      simp [hc, hd]

end Path

namespace Disk

variable {disk : Disk} {p q : Path} {place place' : Place} {text : String}

theorem walk_append {segments segments' : List Segment} {middle : Place}
    (h : disk.walk place segments = .ok middle) (h' : disk.walk middle segments' = .ok place') :
    disk.walk place (segments ++ segments') = .ok place' := by
  unfold walk at h h' ⊢
  rw [List.foldlM_append, h]
  exact h'

/-- A walk along some names has come through the places before. -/
theorem walk_init {names : List String} {last : String}
    (h : disk.walk [] ((names ++ [last]).map .name) = .ok place) :
    disk.walk [] (names.map .name) = .ok names := by
  unfold walk at h
  rw [List.map_append, List.foldlM_append] at h
  cases hinit : (names.map Segment.name).foldlM disk.step [] with
  | error e =>
    rw [hinit] at h
    contradiction
  | ok middle =>
    have hwalk : disk.walk [] (names.map .name) = .ok middle := hinit
    rw [hwalk, walk_names hwalk, List.nil_append]

/-- **A walk leads where the names that are left lead to.** -/
theorem exists_names_of_walk {rest : List Segment} (hplain : ∀ s ∈ rest, s.Plain)
    {names : List String} (hnames : disk.walk [] (names.map .name) = .ok names)
    (h : disk.walk names rest = .ok place) :
    rest.foldl Path.step (.root :: names.map .name).reverse =
        (.root :: place.map .name).reverse ∧
      disk.walk [] (place.map .name) = .ok place ∧
      (place.map Segment.name).Sublist (names.map Segment.name ++ rest) := by
  induction rest generalizing names with
  | nil =>
    obtain rfl := Except.ok.inj h
    exact ⟨rfl, hnames, List.append_nil _ ▸ List.Sublist.refl _⟩
  | cons s rest ih =>
    obtain ⟨next, hstep, hrest⟩ := walk_cons h
    have hplain' := fun t ht => hplain t (List.mem_cons_of_mem _ ht)
    cases s with
    | root | here => exact (hplain _ (List.mem_cons_self ..)).elim
    | name text =>
      obtain rfl := step_name_eq hstep
      have hwalked : disk.walk [] ((names ++ [text]).map .name) = .ok (names ++ [text]) := by
        rw [List.map_append]
        refine walk_append hnames ?_
        unfold walk
        rw [List.map_singleton, List.foldlM_cons, hstep]
        rfl
      obtain ⟨hfold, hwalk, hsublist⟩ := ih hplain' hwalked hrest
      refine ⟨?_, hwalk, ?_⟩
      · rw [List.foldl_cons, Path.step_name, ← hfold]
        simp
      · simpa using hsublist
    | up =>
      obtain rfl := step_up_eq hstep
      rcases List.eq_nil_or_concat names with rfl | ⟨init, last, rfl⟩
      · obtain ⟨hfold, hwalk, hsublist⟩ := ih hplain' hnames hrest
        exact ⟨hfold, hwalk, hsublist.trans (List.sublist_cons_self ..)⟩
      · -- the walk goes back to the place before the last name
        rw [List.concat_eq_append] at hnames hrest ⊢
        rw [List.dropLast_concat] at hrest
        obtain ⟨hfold, hwalk, hsublist⟩ := ih hplain' (walk_init hnames) hrest
        refine ⟨?_, hwalk, hsublist.trans ?_⟩
        · rw [List.foldl_cons, ← hfold]
          congr 1
          simp [Path.step]
        · rw [List.map_append]
          exact (List.sublist_append_left _ _).append (List.sublist_cons_self ..)

/-! ## Reading -/

theorem requireSpelling_of_lookUp {found : Place × DiskEntry} (h : disk.lookUp p = .ok found) :
    requireSpelling p = .ok () := by
  unfold lookUp at h
  simp only [bind, Except.bind, throw, throwThe, MonadExceptOf.throw, pure, Except.pure] at h
  split at h
  · contradiction
  · cases hspell : requireSpelling p with
    | error e => simp [hspell] at h
    | ok _ => rfl

/-- A path that is spelled with some of the characters of another one can be looked up too. -/
theorem requireSpelling_of_sublist (h : requireSpelling p = .ok ())
    (hsublist : q.text.toList.Sublist p.text.toList) : requireSpelling q = .ok () := by
  have hlength := Text.byteLength_le_of_sublist hsublist
  have hp := byteLength_le_of_requireSpelling h
  have hzero : p.text.toList.contains '\x00' = false := by
    unfold requireSpelling at h
    split at h
    · contradiction
    · rename_i hzero
      exact Bool.not_eq_true _ ▸ hzero
  have hzero' : q.text.toList.contains '\x00' = false := by
    rw [← Bool.not_eq_true, List.contains_iff_mem] at hzero ⊢
    exact fun hmem => hzero (hsublist.subset hmem)
  unfold requireSpelling
  rw [hzero', if_neg (by decide), if_neg (by omega)]

/-- A file that lies at the end of a walk can be read, if the spelling is not that of a
directory. -/
theorem read_of_walk {time : Nat} (hspell : requireSpelling p = .ok ())
    (hne : p.text.toList ≠ []) (hname : isDirectorySpelling p.text.toList = false)
    (hwalk : disk.walk disk.workingDir p.segments = .ok place)
    (hentry : disk.entry? place = some (.file (some text) time)) : disk.read p = .ok text := by
  have hempty : p.text.isEmpty = false := by
    rw [← Bool.not_eq_true, String.isEmpty_iff]
    rintro he
    rw [he] at hne
    exact hne rfl
  unfold read lookUp
  simp only [hempty, hspell, hwalk, hentry, hname, bind, Except.bind, pure, Except.pure,
    Bool.false_eq_true, if_false]

/-- **What can be read along an absolute path can be read along its normal form.** -/
theorem read_normalize (hp : p.isAbsolute = true) (h : disk.read p = .ok text) :
    disk.read p.normalize = .ok text := by
  obtain ⟨place, time, hwalk, hentry, _⟩ := exists_walk_of_read h
  obtain ⟨rest, hsegments, hplain, hspelled⟩ := exists_segments_of_isAbsolute hp
  have hspell : requireSpelling p = .ok () := by
    unfold read at h
    cases hlookUp : disk.lookUp p with
    | error e =>
      rw [hlookUp] at h
      contradiction
    | ok found => exact requireSpelling_of_lookUp hlookUp
  rw [hsegments] at hwalk
  obtain ⟨next, hroot, hrest⟩ := walk_cons hwalk
  obtain rfl := Except.ok.inj hroot
  have hhere : disk.walk [] (([] : List String).map Segment.name) = .ok [] := rfl
  obtain ⟨hfold, hnames, hsublist⟩ := exists_names_of_walk hplain hhere hrest
  have hnormal : normalSegments p.segments = .root :: place.map .name := by
    rw [normalSegments, hsegments, List.foldl_cons]
    exact (congrArg List.reverse hfold).trans (List.reverse_reverse _)
  have hplace : ∀ name ∈ place, IsName name := by
    intro name hname
    exact hplain (.name name) (hsublist.subset (List.mem_map_of_mem hname))
  have hpath : p.normalize = ofNames place := by
    rw [Path.normalize, hnormal]
    rfl
  rw [hpath]
  rcases List.eq_nil_or_concat place with rfl | ⟨init, last, rfl⟩
  · -- the root is no file
    have hdirectory : disk.entry? [] = some (.directory 0) := if_pos rfl
    rw [hentry] at hdirectory
    cases hdirectory
  · rw [List.concat_eq_append] at hplace hnames hsublist hentry ⊢
    have hinit := fun name hname => hplace name (List.mem_append_left _ hname)
    have hlast := hplace last (List.mem_append_right _ (List.mem_singleton_self _))
    have hne : init ++ [last] ≠ [] := List.append_ne_nil_of_right_ne_nil _ (List.cons_ne_nil _ _)
    have hspelling := toList_ofNames hplace hne
    have htext : (ofNames (init ++ [last])).text.toList.Sublist p.text.toList := by
      rw [hspelling]
      exact (List.Sublist.flatMap hsublist _).trans hspelled
    refine read_of_walk (requireSpelling_of_sublist hspell htext) ?_
      (isDirectorySpelling_ofNames_concat hinit hlast) ?_ hentry
    · rw [toList_ofNames_concat hinit hlast]
      exact List.append_ne_nil_of_right_ne_nil _ (List.cons_ne_nil _ _)
    · rw [segments_ofNames hplace]
      exact hnames

end Disk

end TypeScriptEngine
