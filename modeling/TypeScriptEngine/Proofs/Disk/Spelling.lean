import Mathlib.Data.List.Nodup
import Mathlib.Data.List.Perm.Subperm
import Mathlib.Data.List.ProdSigma
import Mathlib.Logic.Function.Iterate
import TypeScriptEngine.Disk.Basic
import TypeScriptEngine.Proofs.Path.Normal

/-! # How many normal paths lead to files

A file tree of finitely many files has finitely many normal paths that can be read
(`length_le_spellingBound`).  Such a path is determined by the place that it leads to and by the
number of parents that it begins with (`spelling`), and the bound on the length of a path bounds
that number.
-/

namespace TypeScriptEngine.Disk

open TypeScriptEngine.Path

variable {disk : Disk} {p q : Path} {place place' : Place} {text : String}

/-! ## Walking -/

theorem walk_cons {s : Segment} {segments : List Segment}
    (h : disk.walk place (s :: segments) = .ok place') :
    ∃ next, disk.step place s = .ok next ∧ disk.walk next segments = .ok place' := by
  unfold walk at h ⊢
  rw [List.foldlM_cons] at h
  cases hstep : disk.step place s with
  | error e =>
    rw [hstep] at h
    contradiction
  | ok next =>
    rw [hstep] at h
    exact ⟨next, rfl, h⟩

theorem step_name_eq {name : String} (h : disk.step place (.name name) = .ok place') :
    place' = place ++ [name] := by
  unfold step at h
  cases hd : disk.requireDirectory place with
  | error e => simp [hd, bind, Except.bind] at h
  | ok _ =>
    cases hn : requireName name with
    | error e => simp [hd, hn, bind, Except.bind] at h
    | ok _ =>
      simp only [hd, hn, bind, Except.bind] at h
      split at h
      · contradiction
      · exact (Except.ok.inj h).symm

theorem step_up_eq (h : disk.step place .up = .ok place') : place' = place.dropLast := by
  unfold step at h
  cases hd : disk.requireDirectory place with
  | error e => simp [hd, bind, Except.bind] at h
  | ok _ =>
    rw [hd] at h
    exact (Except.ok.inj h).symm

theorem walk_names {names : List String}
    (h : disk.walk place (names.map .name) = .ok place') : place' = place ++ names := by
  induction names generalizing place with
  | nil => rw [List.append_nil]; exact (Except.ok.inj h).symm
  | cons name names ih =>
    obtain ⟨next, hstep, hrest⟩ := walk_cons h
    rw [ih hrest, step_name_eq hstep, List.append_assoc, List.singleton_append]

theorem walk_parents {k : Nat} {segments : List Segment}
    (h : disk.walk place (List.replicate k .up ++ segments) = .ok place') :
    disk.walk (List.dropLast^[k] place) segments = .ok place' := by
  induction k generalizing place with
  | zero => exact h
  | succ k ih =>
    rw [List.replicate_succ, List.cons_append] at h
    obtain ⟨next, hstep, hrest⟩ := walk_cons h
    rw [Function.iterate_succ_apply, ← step_up_eq hstep]
    exact ih hrest

/-! ## Readable paths -/

theorem byteLength_le_of_requireSpelling (h : requireSpelling p = .ok ()) :
    Text.byteLength p.text.toList ≤ maxPathLength := by
  unfold requireSpelling at h
  split at h
  · contradiction
  · split at h
    · contradiction
    · rename_i hle
      exact Nat.le_of_not_lt hle

/-- What is found is at the end of a walk, along a path that is not too long. -/
theorem exists_walk_of_lookUp {entry : DiskEntry} (h : disk.lookUp p = .ok (place, entry)) :
    disk.walk disk.workingDir p.segments = .ok place ∧ disk.entry? place = some entry ∧
      Text.byteLength p.text.toList ≤ maxPathLength := by
  unfold lookUp at h
  simp only [bind, Except.bind, throw, throwThe, MonadExceptOf.throw, pure, Except.pure] at h
  split at h
  · contradiction
  · cases hspell : requireSpelling p with
    | error e => simp [hspell] at h
    | ok _ =>
      cases hwalk : disk.walk disk.workingDir p.segments with
      | error e => simp [hspell, hwalk] at h
      | ok found =>
        cases hentry : disk.entry? found with
        | none => simp [hspell, hwalk, hentry] at h
        | some found' =>
          simp only [hspell, hwalk, hentry] at h
          have hfound : found = place ∧ found' = entry := by
            split at h
            · split at h
              · contradiction
              · exact Prod.mk.inj (Except.ok.inj h)
            · exact Prod.mk.inj (Except.ok.inj h)
          obtain ⟨rfl, rfl⟩ := hfound
          exact ⟨rfl, hentry, byteLength_le_of_requireSpelling hspell⟩

/-- What can be read is a file, at the end of a walk along a path that is not too long. -/
theorem exists_walk_of_read (h : disk.read p = .ok text) :
    ∃ place time, disk.walk disk.workingDir p.segments = .ok place ∧
      disk.entry? place = some (.file (some text) time) ∧
      Text.byteLength p.text.toList ≤ maxPathLength := by
  unfold read at h
  cases hlookUp : disk.lookUp p with
  | error e =>
    rw [hlookUp] at h
    contradiction
  | ok found =>
    obtain ⟨place, entry⟩ := found
    rw [hlookUp] at h
    obtain ⟨hwalk, hentry, hlength⟩ := exists_walk_of_lookUp hlookUp
    cases entry with
    | directory _ => contradiction
    | file text? time =>
      cases text? with
      | none => contradiction
      | some t =>
        obtain rfl := Except.ok.inj h
        exact ⟨place, time, hwalk, hentry, hlength⟩

/-- The current directory cannot be read. -/
theorem segments_ne_here (h : disk.read p = .ok text) : p.segments ≠ [.here] := by
  intro hhere
  obtain ⟨place, time, hwalk, hentry, _⟩ := exists_walk_of_read h
  rw [hhere] at hwalk
  obtain ⟨next, hstep, hrest⟩ := walk_cons hwalk
  obtain rfl := Except.ok.inj hrest
  unfold step at hstep
  cases hd : disk.requireDirectory disk.workingDir with
  | error e =>
    rw [hd] at hstep
    contradiction
  | ok _ =>
    rw [hd] at hstep
    obtain rfl := Except.ok.inj hstep
    rw [requireDirectory, hentry] at hd
    contradiction

theorem settled_of_read (hp : p.IsNormal) (h : disk.read p = .ok text) : Settled p.segments := by
  have hsegments := segments_normalize p
  rw [hp] at hsegments
  split at hsegments
  · exact absurd hsegments (segments_ne_here h)
  · exact hsegments ▸ settled_normalSegments p

/-! ## The number of spellings -/

/-- The place that a path leads to, and zero for an absolute path or one more than the number of
parents in a relative one. -/
def spelling (disk : Disk) (p : Path) : Place × Nat :=
  ((disk.walk disk.workingDir p.segments).toOption.getD [],
    if p.segments.head? = some .root then 0 else p.segments.count .up + 1)

/-- A readable normal path begins at the root or with some parents, and goes on with names. -/
theorem spelling_cases (hp : p.IsNormal) (h : disk.read p = .ok text) :
    ∃ names : List String,
      (p.segments = .root :: names.map .name ∧ disk.spelling p = (names, 0)) ∨
        ∃ k, p.segments = List.replicate k .up ++ names.map .name ∧
          disk.spelling p = (List.dropLast^[k] disk.workingDir ++ names, k + 1) := by
  obtain ⟨place, _, hwalk, _, _⟩ := exists_walk_of_read h
  obtain ⟨head, names, hhead, _, hsegments⟩ := settled_of_read hp h
  refine ⟨names, ?_⟩
  unfold spelling
  rw [hwalk]
  rw [hsegments] at hwalk
  rcases hhead with rfl | ⟨k, rfl⟩
  · obtain ⟨next, hstep, hrest⟩ := walk_cons hwalk
    obtain rfl := Except.ok.inj hstep
    rw [hsegments]
    exact Or.inl ⟨rfl, Prod.ext (walk_names hrest) rfl⟩
  · have hplace := walk_names (walk_parents hwalk)
    have hroot : (List.replicate k Segment.up ++ names.map Segment.name).head? ≠ some .root := by
      cases k <;> cases names <;> simp [List.replicate_succ]
    have hcount : (List.replicate k Segment.up ++ names.map Segment.name).count Segment.up = k := by
      rw [List.count_append, List.count_replicate_self, List.count_eq_zero.mpr (by simp)]
      rfl
    rw [hsegments, if_neg hroot, hcount]
    exact Or.inr ⟨k, rfl, Prod.ext hplace rfl⟩

/-- **Readable normal paths are told apart by their spelling.** -/
theorem eq_of_spelling_eq {text' : String} (hp : p.IsNormal) (hq : q.IsNormal)
    (h : disk.read p = .ok text) (h' : disk.read q = .ok text')
    (he : disk.spelling p = disk.spelling q) : p = q := by
  refine hp.eq_of_beq hq (beq_iff.mpr ?_)
  obtain ⟨names, hcases⟩ := spelling_cases hp h
  obtain ⟨names', hcases'⟩ := spelling_cases hq h'
  rcases hcases with ⟨hs, hn⟩ | ⟨k, hs, hn⟩ <;>
    rcases hcases' with ⟨hs', hn'⟩ | ⟨k', hs', hn'⟩ <;>
      rw [hn, hn', Prod.mk.injEq] at he
  · rw [hs, hs', he.1]
  · exact absurd he.2 (Nat.succ_ne_zero k').symm
  · exact absurd he.2 (Nat.succ_ne_zero k)
  · obtain ⟨hplace, hk⟩ := he
    obtain rfl := Nat.succ.inj hk
    rw [hs, hs', List.append_cancel_left hplace]

theorem length_flatten_splitOn (sep : Char) (cs : List Char) :
    (Text.splitOn sep cs).flatten.length ≤ cs.length := by
  induction cs with
  | nil => exact Nat.le_refl 0
  | cons c cs ih =>
    rw [Text.splitOn]
    split
    · exact Nat.le_succ_of_le ih
    · cases hcs : Text.splitOn sep cs with
      | nil => exact absurd hcs (Text.splitOn_ne_nil sep cs)
      | cons part parts =>
        rw [hcs] at ih
        exact Nat.succ_le_succ ih

/-- Each parent is a part of two characters. -/
theorem count_up_parts (parts : List (List Char)) :
    (parts.filterMap Segment.ofPart?).count .up ≤ parts.flatten.length := by
  induction parts with
  | nil => exact Nat.le_refl 0
  | cons part parts ih =>
    rw [List.flatten_cons, List.length_append]
    cases hpart : Segment.ofPart? part with
    | none =>
      rw [List.filterMap_cons_none hpart]
      omega
    | some s =>
      rw [List.filterMap_cons_some hpart, List.count_cons]
      have hne : part ≠ [] := by
        rintro rfl
        contradiction
      have hlength := List.length_pos_iff.mpr hne
      split <;> omega

theorem count_up_le (p : Path) : p.segments.count .up ≤ p.text.toList.length := by
  have hparts := Nat.le_trans (count_up_parts _) (length_flatten_splitOn '/' p.text.toList)
  unfold segments segmentsOf
  split
  · simpa using hparts
  · simp
  · simpa using hparts
  · exact hparts

theorem mem_places_of_entry? {entry : DiskEntry} (h : disk.entry? place = some entry)
    (hne : place ≠ []) : place ∈ disk.entries.map Prod.fst := by
  unfold entry? at h
  rw [if_neg hne] at h
  obtain ⟨e, he, _⟩ := Option.map_eq_some_iff.mp h
  have hplace : (e.1 == place) = true := by simpa using List.find?_some he
  exact List.mem_map.mpr ⟨e, List.mem_of_find?_eq_some he, beq_iff_eq.mp hplace⟩

theorem spelling_mem (h : disk.read p = .ok text) :
    disk.spelling p ∈ disk.entries.map Prod.fst ×ˢ List.range (maxPathLength + 2) := by
  obtain ⟨place, time, hwalk, hentry, hlength⟩ := exists_walk_of_read h
  refine List.mem_product.mpr ⟨?_, List.mem_range.mpr ?_⟩
  · show (disk.walk disk.workingDir p.segments).toOption.getD [] ∈ _
    rw [hwalk]
    refine mem_places_of_entry? hentry ?_
    rintro rfl
    -- the root is a directory
    have hroot : disk.entry? [] = some (.directory 0) := if_pos rfl
    rw [hentry] at hroot
    cases hroot
  · have hcount := count_up_le p
    have hchars := Text.length_le_byteLength p.text.toList
    show (if p.segments.head? = some .root then 0 else p.segments.count .up + 1) < _
    split
    · exact Nat.succ_pos _
    · omega

/-- There are no more readable normal paths than files and numbers of parents. -/
theorem length_le_product {ps : List Path} (hdistinct : ps.Nodup)
    (hnormal : ∀ p ∈ ps, p.IsNormal) (hread : ∀ p ∈ ps, ∃ text, disk.read p = .ok text) :
    ps.length ≤ disk.entries.length * (maxPathLength + 2) := by
  -- told apart by pairs of a place and a number, of which there are finitely many
  have hcodes : (ps.map disk.spelling).Nodup := by
    refine List.Nodup.map_on (fun p hp q hq he => ?_) hdistinct
    obtain ⟨_, htext⟩ := hread p hp
    obtain ⟨_, htext'⟩ := hread q hq
    exact eq_of_spelling_eq (hnormal p hp) (hnormal q hq) htext htext' he
  have hsubset : ps.map disk.spelling ⊆
      disk.entries.map Prod.fst ×ˢ List.range (maxPathLength + 2) := by
    intro code hcode
    obtain ⟨p, hp, rfl⟩ := List.mem_map.mp hcode
    obtain ⟨_, htext⟩ := hread p hp
    exact spelling_mem htext
  have hle := (List.subperm_of_subset hcodes hsubset).length_le
  rw [List.length_map, List.length_product, List.length_map, List.length_range] at hle
  exact hle

/-- **There are no more readable normal paths than the bound says.** -/
theorem length_le_spellingBound {ps : List Path} (hdistinct : ps.Nodup)
    (hnormal : ∀ p ∈ ps, p.IsNormal) (hread : ∀ p ∈ ps, ∃ text, disk.read p = .ok text) :
    ps.length ≤ disk.spellingBound :=
  Nat.le_trans (length_le_product hdistinct hnormal hread)
    (Nat.mul_le_mul_left _ (Nat.le_succ _))

/-- If something can be read at all, there are even fewer. -/
theorem length_lt_spellingBound {ps : List Path} (hdistinct : ps.Nodup)
    (hnormal : ∀ p ∈ ps, p.IsNormal) (hread : ∀ p ∈ ps, ∃ text, disk.read p = .ok text)
    (hq : disk.read q = .ok text) : ps.length < disk.spellingBound := by
  have hle := length_le_product hdistinct hnormal hread
  obtain ⟨hplace, _⟩ := List.mem_product.mp (spelling_mem hq)
  have hpos : 0 < disk.entries.length := by
    rw [← List.length_map Prod.fst]
    exact List.length_pos_of_mem hplace
  have hbound : disk.spellingBound =
      disk.entries.length * (maxPathLength + 2) + disk.entries.length := Nat.mul_succ _ _
  omega

end TypeScriptEngine.Disk
