import TypeScriptEngine.Disk.Change
import TypeScriptEngine.Proofs.Disk.Normal
import TypeScriptEngine.Proofs.Path.Canonical

/-! # Trees in which files were written

`WrittenAt W before after` says that two trees differ in nothing but files at places with a property
`W`, none of which was a directory.  Then the same places are directories, and a walk goes through
only now just if it ends at a written file, since no way leads on from it
(`WrittenAt.lookUp_cases`).  So what was a file is one still, and a path with a name that no written
file has leads to what it led to before.  Writing a file is such a change (`writtenAt_write`), and
making the directory of a file that is there is none (`makeDirectories_eq`).
-/

namespace TypeScriptEngine

open TypeScriptEngine.Path Segment

namespace Disk

variable {disk before middle after : Disk} {p : Path} {place found : Place} {entry : DiskEntry}
  {W : Place → Prop} {text : Option String} {time : Nat}

/-! ## What a lookup asks for -/

theorem bind_eq_ok_iff {α β : Type} {x : Except DiskError α} {f : α → Except DiskError β} {b : β} :
    (x >>= f) = .ok b ↔ ∃ a, x = .ok a ∧ f a = .ok b := by
  constructor
  · intro h
    cases x with
    | error e => contradiction
    | ok a => exact ⟨a, rfl, h⟩
  · rintro ⟨a, rfl, h⟩
    exact h

theorem requireDirectory_eq_ok_iff :
    disk.requireDirectory place = .ok () ↔ ∃ time, disk.entry? place = some (.directory time) := by
  unfold requireDirectory
  split <;> simp_all

theorem step_name_iff {name : String} : disk.step place (.name name) = .ok found ↔
    disk.requireDirectory place = .ok () ∧ requireName name = .ok () ∧
      disk.entry? (place ++ [name]) ≠ none ∧ found = place ++ [name] := by
  rw [step, bind_eq_ok_iff]
  simp only [bind_eq_ok_iff]
  constructor
  · rintro ⟨_, hdirectory, _, hname, h⟩
    split at h
    · contradiction
    · rename_i hentry
      exact ⟨hdirectory, hname, by simpa using hentry, (Except.ok.inj h).symm⟩
  · rintro ⟨hdirectory, hname, hentry, rfl⟩
    refine ⟨(), hdirectory, (), hname, ?_⟩
    rw [if_neg (by simpa using hentry)]
    rfl

/-- A step and what is walked behind it are a walk. -/
theorem walk_of_step {s : Segment} {segments : List Segment} {next : Place}
    (hstep : disk.step place s = .ok next) (hrest : disk.walk next segments = .ok found) :
    disk.walk place (s :: segments) = .ok found :=
  bind_eq_ok_iff.mpr ⟨next, hstep, hrest⟩

/-- A step that leaves a place without going back to the root asks for a directory there. -/
theorem requireDirectory_of_step {s : Segment} (hs : s ≠ .root)
    (h : disk.step place s = .ok found) : disk.requireDirectory place = .ok () := by
  cases s with
  | root => contradiction
  | here | up | name text =>
    obtain ⟨_, hdirectory, -⟩ := bind_eq_ok_iff.mp h
    exact hdirectory

theorem lookUp_eq_ok_iff : disk.lookUp p = .ok (found, entry) ↔
    p.text.isEmpty = false ∧ requireSpelling p = .ok () ∧
      disk.walk disk.workingDir p.segments = .ok found ∧ disk.entry? found = some entry ∧
      (isDirectorySpelling p.text.toList = true → disk.requireDirectory found = .ok ()) := by
  unfold lookUp
  by_cases hempty : p.text.isEmpty = true
  · simp [hempty, bind, Except.bind, throw, throwThe, MonadExceptOf.throw]
  · rw [if_neg hempty]
    simp only [bind_eq_ok_iff]
    constructor
    · rintro ⟨_, hspell, place, hwalk, h⟩
      refine ⟨by simpa using hempty, hspell, ?_⟩
      cases hentry : disk.entry? place with
      | none =>
        simp only [hentry] at h
        contradiction
      | some e =>
        simp only [hentry] at h
        split at h
        · obtain ⟨_, hdirectory, h⟩ := bind_eq_ok_iff.mp h
          obtain ⟨rfl, rfl⟩ := Prod.mk.inj (Except.ok.inj h)
          exact ⟨hwalk, hentry, fun _ => hdirectory⟩
        · rename_i hspelled
          obtain ⟨rfl, rfl⟩ := Prod.mk.inj (Except.ok.inj h)
          exact ⟨hwalk, hentry, fun h => absurd h hspelled⟩
    · rintro ⟨-, hspell, hwalk, hentry, hdirectory⟩
      refine ⟨(), hspell, found, hwalk, ?_⟩
      simp only [hentry]
      split
      · rename_i hspelled
        rw [hdirectory hspelled]
        rfl
      · rfl

theorem isFile_iff : disk.isFile p = true ↔
    ∃ place text time, disk.lookUp p = .ok (place, .file text time) := by
  unfold isFile
  split
  · rename_i hlookUp
    simp [hlookUp]
  · rename_i hlookUp
    refine iff_of_false Bool.false_ne_true ?_
    rintro ⟨place, text, time, h⟩
    exact hlookUp _ _ _ h

theorem isFile_of_read {text : String} (h : disk.read p = .ok text) : disk.isFile p = true := by
  obtain ⟨⟨place, entry⟩, hfound, h⟩ := bind_eq_ok_iff.mp h
  cases entry with
  | directory time => contradiction
  | file text time => exact isFile_iff.mpr ⟨place, text, time, hfound⟩

theorem isDirectory_iff : disk.isDirectory p = true ↔
    ∃ place time, disk.lookUp p = .ok (place, .directory time) := by
  unfold isDirectory
  split
  · rename_i hlookUp
    simp [hlookUp]
  · rename_i hlookUp
    refine iff_of_false Bool.false_ne_true ?_
    rintro ⟨place, time, h⟩
    exact hlookUp _ _ h

/-! ## Writing -/

/-- There is a file at a place with a property, where there was no directory. -/
structure IsWritten (W : Place → Prop) (before after : Disk) (place : Place) : Prop where
  allowed : W place
  not_directory : before.requireDirectory place ≠ .ok ()
  file : ∃ text time, after.entry? place = some (.file text time)

/-- A tree differs from another one in nothing but files that were written at places with a
property. -/
structure WrittenAt (W : Place → Prop) (before after : Disk) : Prop where
  workingDir : after.workingDir = before.workingDir
  entry_cases : ∀ place,
    after.entry? place = before.entry? place ∨ IsWritten W before after place

namespace WrittenAt

theorem refl (W : Place → Prop) (disk : Disk) : WrittenAt W disk disk :=
  ⟨rfl, fun _ => Or.inl rfl⟩

theorem mono {W' : Place → Prop} (h : WrittenAt W before after) (hW : ∀ place, W place → W' place) :
    WrittenAt W' before after :=
  ⟨h.workingDir, fun place => (h.entry_cases place).imp_right fun hnew =>
    ⟨hW place hnew.allowed, hnew.not_directory, hnew.file⟩⟩

/-- **Written files take no directory away and make none.** -/
theorem requireDirectory_iff (h : WrittenAt W before after) (place : Place) :
    after.requireDirectory place = .ok () ↔ before.requireDirectory place = .ok () := by
  rcases h.entry_cases place with he | ⟨-, hno, text, time, he⟩
  · rw [requireDirectory, he, requireDirectory]
  · refine iff_of_false ?_ hno
    simp [requireDirectory, he]

theorem trans (h : WrittenAt W before middle) (h' : WrittenAt W middle after) :
    WrittenAt W before after := by
  refine ⟨h'.workingDir.trans h.workingDir, fun place => ?_⟩
  rcases h'.entry_cases place with he' | ⟨hW, hno, hfile⟩
  · rw [he']
    exact (h.entry_cases place).imp_right fun hnew =>
      ⟨hnew.allowed, hnew.not_directory, he' ▸ hnew.file⟩
  · exact Or.inr ⟨hW, mt (h.requireDirectory_iff place).mpr hno, hfile⟩

theorem entry_ne_none (h : WrittenAt W before after) (hentry : before.entry? place ≠ none) :
    after.entry? place ≠ none := by
  rcases h.entry_cases place with he | ⟨-, -, text, time, he⟩
  · rwa [he]
  · simp [he]

theorem step_of_step (h : WrittenAt W before after) {s : Segment}
    (hstep : before.step place s = .ok found) : after.step place s = .ok found := by
  cases s with
  | root => exact hstep
  | here | up =>
    obtain ⟨_, hdirectory, hfound⟩ := bind_eq_ok_iff.mp hstep
    exact bind_eq_ok_iff.mpr ⟨(), (h.requireDirectory_iff place).mpr hdirectory, hfound⟩
  | name text =>
    obtain ⟨hdirectory, hname, hentry, hfound⟩ := step_name_iff.mp hstep
    exact step_name_iff.mpr
      ⟨(h.requireDirectory_iff place).mpr hdirectory, hname, h.entry_ne_none hentry, hfound⟩

/-- A step that goes through only now leads to a written file. -/
theorem step_cases (h : WrittenAt W before after) {s : Segment}
    (hstep : after.step place s = .ok found) :
    before.step place s = .ok found ∨ IsWritten W before after found := by
  cases s with
  | root => exact Or.inl hstep
  | here | up =>
    obtain ⟨_, hdirectory, hfound⟩ := bind_eq_ok_iff.mp hstep
    exact Or.inl (bind_eq_ok_iff.mpr ⟨(), (h.requireDirectory_iff place).mp hdirectory, hfound⟩)
  | name text =>
    obtain ⟨hdirectory, hname, hentry, rfl⟩ := step_name_iff.mp hstep
    refine (h.entry_cases (place ++ [text])).imp_left fun he => ?_
    exact step_name_iff.mpr
      ⟨(h.requireDirectory_iff place).mp hdirectory, hname, he ▸ hentry, rfl⟩

theorem walk_of_walk (h : WrittenAt W before after) {segments : List Segment}
    (hwalk : before.walk place segments = .ok found) : after.walk place segments = .ok found := by
  induction segments generalizing place with
  | nil => exact hwalk
  | cons s segments ih =>
    obtain ⟨next, hstep, hrest⟩ := walk_cons hwalk
    exact walk_of_step (h.step_of_step hstep) (ih hrest)

/-- **A walk that goes through only now ends at a written file,** since no way leads on from it. -/
theorem walk_cases (h : WrittenAt W before after) {segments : List Segment}
    (hroot : .root ∉ segments) (hwalk : after.walk place segments = .ok found) :
    before.walk place segments = .ok found ∨ IsWritten W before after found := by
  induction segments generalizing place with
  | nil => exact Or.inl hwalk
  | cons s segments ih =>
    obtain ⟨next, hstep, hrest⟩ := walk_cons hwalk
    obtain ⟨-, hroot'⟩ := not_or.mp (mt List.mem_cons.mpr hroot)
    rcases h.step_cases hstep with hstep | hnew
    · exact (ih hroot' hrest).imp_left fun hrest => walk_of_step hstep hrest
    · cases segments with
      | nil => exact Or.inr (Except.ok.inj hrest ▸ hnew)
      | cons t segments =>
        obtain ⟨_, hnext, -⟩ := walk_cons hrest
        have ht : t ≠ .root := fun he => hroot' (he ▸ List.mem_cons_self ..)
        have hdirectory := (h.requireDirectory_iff next).mp (requireDirectory_of_step ht hnext)
        exact absurd hdirectory hnew.not_directory

theorem walk_segments_cases (h : WrittenAt W before after)
    (hwalk : after.walk after.workingDir p.segments = .ok found) :
    before.walk before.workingDir p.segments = .ok found ∨ IsWritten W before after found := by
  rw [h.workingDir] at hwalk
  cases hp : p.isAbsolute with
  | false => exact h.walk_cases (mt root_mem_segments_iff.mp (by simp [hp])) hwalk
  | true =>
    obtain ⟨cs, -, hsegments⟩ := exists_partsOf hp
    rw [hsegments] at hwalk ⊢
    obtain ⟨next, hstep, hrest⟩ := walk_cons hwalk
    obtain rfl := Except.ok.inj hstep
    have hroot : .root ∉ partsOf cs := fun hmem => (plain_of_mem_partsOf hmem).elim
    exact (h.walk_cases hroot hrest).imp_left fun hrest => hrest

/-- **What is found after the writing was found before, or is a written file.** -/
theorem lookUp_cases (h : WrittenAt W before after) (hfound : after.lookUp p = .ok (found, entry)) :
    before.lookUp p = .ok (found, entry) ∨
      IsWritten W before after found ∧ ∃ text time, entry = .file text time := by
  obtain ⟨hempty, hspell, hwalk, hentry, hdirectory⟩ := lookUp_eq_ok_iff.mp hfound
  have hnew (hwritten : IsWritten W before after found) :
      IsWritten W before after found ∧ ∃ text time, entry = .file text time := by
    obtain ⟨text, time, he⟩ := hwritten.file
    exact ⟨hwritten, text, time, Option.some.inj (hentry.symm.trans he)⟩
  rcases h.entry_cases found with he | hwritten
  · refine (h.walk_segments_cases hwalk).imp (fun hwalk => ?_) hnew
    exact lookUp_eq_ok_iff.mpr ⟨hempty, hspell, hwalk, he ▸ hentry, fun hspelled =>
      (h.requireDirectory_iff found).mp (hdirectory hspelled)⟩
  · exact Or.inr (hnew hwritten)

/-- **What was found before is still found,** unless it was a file that is written again. -/
theorem lookUp_of_lookUp (h : WrittenAt W before after)
    (hfound : before.lookUp p = .ok (found, entry)) :
    after.lookUp p = .ok (found, entry) ∨
      IsWritten W before after found ∧
        ∃ text time, after.lookUp p = .ok (found, .file text time) := by
  obtain ⟨hempty, hspell, hwalk, hentry, hdirectory⟩ := lookUp_eq_ok_iff.mp hfound
  have hwalk' : after.walk after.workingDir p.segments = .ok found := by
    rw [h.workingDir]
    exact h.walk_of_walk hwalk
  have hdirectory' (hspelled : isDirectorySpelling p.text.toList = true) :
      after.requireDirectory found = .ok () :=
    (h.requireDirectory_iff found).mpr (hdirectory hspelled)
  rcases h.entry_cases found with he | hwritten
  · exact Or.inl (lookUp_eq_ok_iff.mpr ⟨hempty, hspell, hwalk', he ▸ hentry, hdirectory'⟩)
  · obtain ⟨text, time, he⟩ := hwritten.file
    exact Or.inr ⟨hwritten, text, time,
      lookUp_eq_ok_iff.mpr ⟨hempty, hspell, hwalk', he, hdirectory'⟩⟩

/-- **The directories stay the same.** -/
theorem isDirectory_eq (h : WrittenAt W before after) (p : Path) :
    after.isDirectory p = before.isDirectory p := by
  rw [Bool.eq_iff_iff, isDirectory_iff, isDirectory_iff]
  constructor
  · rintro ⟨place, time, hfound⟩
    rcases h.lookUp_cases hfound with hfound | ⟨-, _, _, he⟩
    · exact ⟨place, time, hfound⟩
    · contradiction
  · rintro ⟨place, time, hfound⟩
    rcases h.lookUp_of_lookUp hfound with hfound' | ⟨hwritten, -⟩
    · exact ⟨place, time, hfound'⟩
    · obtain ⟨-, -, -, hentry, -⟩ := lookUp_eq_ok_iff.mp hfound
      exact absurd (requireDirectory_eq_ok_iff.mpr ⟨time, hentry⟩) hwritten.not_directory

/-- **A file stays one.** -/
theorem isFile_of_isFile (h : WrittenAt W before after) (hp : before.isFile p = true) :
    after.isFile p = true := by
  obtain ⟨place, text, time, hfound⟩ := isFile_iff.mp hp
  rcases h.lookUp_of_lookUp hfound with hfound' | ⟨-, text', time', hfound'⟩
  · exact isFile_iff.mpr ⟨place, text, time, hfound'⟩
  · exact isFile_iff.mpr ⟨place, text', time', hfound'⟩

/-- What is a file only now leads to a written one. -/
theorem isFile_cases (h : WrittenAt W before after) (hp : after.isFile p = true) :
    before.isFile p = true ∨
      ∃ place, W place ∧ after.walk after.workingDir p.segments = .ok place := by
  obtain ⟨place, text, time, hfound⟩ := isFile_iff.mp hp
  rcases h.lookUp_cases hfound with hfound' | ⟨hwritten, -⟩
  · exact Or.inl (isFile_iff.mpr ⟨place, text, time, hfound'⟩)
  · obtain ⟨-, -, hwalk, -⟩ := lookUp_eq_ok_iff.mp hfound
    exact Or.inr ⟨place, hwritten.allowed, hwalk⟩

end WrittenAt

/-! ## Names at the end of a path -/

theorem walk_concat {segments : List Segment} {s : Segment}
    (h : disk.walk place (segments ++ [s]) = .ok found) :
    ∃ middle, disk.walk place segments = .ok middle ∧ disk.step middle s = .ok found := by
  unfold walk at h ⊢
  rw [List.foldlM_append] at h
  obtain ⟨middle, hmiddle, hlast⟩ := bind_eq_ok_iff.mp h
  obtain ⟨next, hstep, hnext⟩ := walk_cons hlast
  exact ⟨middle, hmiddle, Except.ok.inj hnext ▸ hstep⟩

/-- A path with a file name leads to a place with this name at its end. -/
theorem getLast?_of_walk {name : String} (hname : p.fileName? = some name)
    (h : disk.walk disk.workingDir p.segments = .ok place) : place.getLast? = some name := by
  obtain ⟨s, hs, hlast⟩ := Option.bind_eq_some_iff.mp hname
  obtain ⟨init, hinit⟩ := List.getLast?_eq_some_iff.mp hs
  rw [hinit] at h
  obtain ⟨middle, -, hstep⟩ := walk_concat h
  cases s with
  | root | here | up => contradiction
  | name text =>
    obtain rfl := Option.some.inj hlast
    rw [step_name_eq hstep, List.getLast?_concat]

namespace WrittenAt

/-- **Paths with a name that no written file has** lead to the same files with the same texts. -/
theorem isFile_eq_of_name (h : WrittenAt W before after) {name : String}
    (hname : p.fileName? = some name) (hW : ∀ place, W place → place.getLast? ≠ some name) :
    after.isFile p = before.isFile p := by
  rw [Bool.eq_iff_iff]
  refine ⟨fun hp => ?_, h.isFile_of_isFile⟩
  rcases h.isFile_cases hp with hp | ⟨place, hplace, hwalk⟩
  · exact hp
  · exact absurd (getLast?_of_walk hname hwalk) (hW place hplace)

theorem lookUp_eq_of_name (h : WrittenAt W before after) {name : String}
    (hname : p.fileName? = some name) (hW : ∀ place, W place → place.getLast? ≠ some name) :
    ∀ found, after.lookUp p = .ok found ↔ before.lookUp p = .ok found := by
  rintro ⟨place, entry⟩
  constructor
  · intro hfound
    obtain ⟨-, -, hwalk, -⟩ := lookUp_eq_ok_iff.mp hfound
    rcases h.lookUp_cases hfound with hfound' | ⟨hwritten, -⟩
    · exact hfound'
    · exact absurd (getLast?_of_walk hname hwalk) (hW place hwritten.allowed)
  · intro hfound
    obtain ⟨-, -, hwalk, -⟩ := lookUp_eq_ok_iff.mp hfound
    rcases h.lookUp_of_lookUp hfound with hfound' | ⟨hwritten, -⟩
    · exact hfound'
    · exact absurd (getLast?_of_walk hname hwalk) (hW place hwritten.allowed)

end WrittenAt

/-! ## What the operations do -/

theorem entry_put (hne : place ≠ []) (entry : DiskEntry) (q : Place) :
    entry? (disk.put place entry) q = if q = place then some entry else disk.entry? q := by
  unfold entry? put
  by_cases hq : q = []
  · rw [if_pos hq, if_neg (by rw [hq]; exact hne.symm), if_pos hq]
  · rw [if_neg hq, if_neg hq, List.find?_append]
    by_cases hplace : q = place
    · have hnone : (disk.entries.filter fun e => !(e.1 == place)).find? (·.1 == q) = none := by
        rw [List.find?_eq_none]
        intro e he
        simpa [hplace] using (List.mem_filter.mp he).2
      rw [hnone, if_pos hplace, hplace]
      simp
    · have hsame : (disk.entries.filter fun e => !(e.1 == place)).find? (·.1 == q) =
          disk.entries.find? (·.1 == q) := by
        rw [List.find?_filter]
        congr 1
        funext e
        by_cases he : e.1 = q <;> simp [he, hplace]
      have hlast : [(place, entry)].find? (·.1 == q) = none := by simp [Ne.symm hplace]
      rw [hsame, hlast, Option.or_none, if_neg hplace]

/-- **To put a file where there is no directory is to write it.** -/
theorem writtenAt_put (h : disk.requireDirectory place ≠ .ok ()) (text : Option String)
    (time : Nat) : WrittenAt (· = place) disk (disk.put place (.file text time)) := by
  have hne : place ≠ [] := by
    rintro rfl
    exact h (requireDirectory_eq_ok_iff.mpr ⟨0, if_pos rfl⟩)
  refine ⟨rfl, fun q => ?_⟩
  rw [entry_put hne]
  split
  · rename_i hq
    subst hq
    exact Or.inr ⟨rfl, h, text, time, by rw [entry_put hne, if_pos rfl]⟩
  · exact Or.inl rfl

/-- **A file is written where its names lead to.** -/
theorem writtenAt_write {names : List String} (h : ∀ name ∈ names, IsName name)
    (hwrite : disk.write time (ofNames names) text = .ok after) :
    WrittenAt (· = names) disk after := by
  unfold write at hwrite
  by_cases hempty : (ofNames names).text.isEmpty = true
  · rw [if_pos hempty] at hwrite
    contradiction
  rw [if_neg hempty, segments_ofNames h] at hwrite
  obtain ⟨_, -, hwrite⟩ := bind_eq_ok_iff.mp hwrite
  obtain ⟨directory, hwalk, hwrite⟩ := bind_eq_ok_iff.mp hwrite
  obtain ⟨_, hdirectory, hwrite⟩ := bind_eq_ok_iff.mp hwrite
  rcases List.eq_nil_or_concat names with rfl | ⟨init, last, rfl⟩
  · contradiction
  · rw [List.concat_eq_append] at h hwrite hwalk ⊢
    have hsegments : Segment.root :: (init ++ [last]).map .name =
        (.root :: init.map .name) ++ [.name last] := by simp
    rw [hsegments, List.dropLast_concat] at hwalk
    obtain ⟨next, hroot, hinit⟩ := walk_cons hwalk
    obtain rfl := Except.ok.inj hroot
    obtain rfl := walk_names hinit
    rw [hsegments, List.getLast?_concat] at hwrite
    by_cases hspelled : isDirectorySpelling (ofNames (directory ++ [last])).text.toList = true
    · simp only [if_pos hspelled] at hwrite
      contradiction
    simp only [if_neg hspelled] at hwrite
    obtain ⟨_, -, hwrite⟩ := bind_eq_ok_iff.mp hwrite
    split at hwrite
    · contradiction
    · rename_i hno
      obtain rfl := Except.ok.inj hwrite
      refine writtenAt_put (fun hrequire => ?_) _ _
      obtain ⟨time', hentry⟩ := requireDirectory_eq_ok_iff.mp hrequire
      exact hno _ hentry

/-- Directories that are there are not made again. -/
theorem makeDirectoriesFrom_eq {names : List String}
    (hwalk : disk.walk place (names.map .name) = .ok found)
    (hfound : disk.requireDirectory found = .ok ()) :
    makeDirectoriesFrom time disk place (names.map .name) = .ok (disk, found) := by
  induction names generalizing place with
  | nil =>
    obtain rfl := Except.ok.inj hwalk
    rfl
  | cons name names ih =>
    obtain ⟨next, hstep, hrest⟩ := walk_cons hwalk
    obtain ⟨hdirectory, hname, -, rfl⟩ := step_name_iff.mp hstep
    have hnext : disk.requireDirectory (place ++ [name]) = .ok () := by
      cases names with
      | nil => exact Except.ok.inj hrest ▸ hfound
      | cons second names =>
        obtain ⟨_, hsecond, -⟩ := walk_cons hrest
        exact requireDirectory_of_step (by simp) hsecond
    obtain ⟨made, hentry⟩ := requireDirectory_eq_ok_iff.mp hnext
    rw [List.map_cons, makeDirectoriesFrom, hdirectory, hname]
    simp only [hentry]
    exact ih hrest

/-! ## The directory of a file -/

theorem requireDirectory_of_isFile {names : List String} {name : String}
    (h : ∀ n ∈ names ++ [name], IsName n) (hfile : disk.isFile (ofNames (names ++ [name])) = true) :
    disk.walk [] (names.map .name) = .ok names ∧ disk.requireDirectory names = .ok () := by
  obtain ⟨place, text, time, hfound⟩ := isFile_iff.mp hfile
  obtain ⟨-, -, hwalk, -⟩ := lookUp_eq_ok_iff.mp hfound
  rw [segments_ofNames h] at hwalk
  obtain ⟨next, hroot, hrest⟩ := walk_cons hwalk
  obtain rfl := Except.ok.inj hroot
  have hinit := walk_init hrest
  rw [List.map_append] at hrest
  obtain ⟨middle, hmiddle, hstep⟩ := walk_concat hrest
  obtain rfl := Except.ok.inj (hinit.symm.trans hmiddle)
  exact ⟨hinit, requireDirectory_of_step (by simp) hstep⟩

/-- **The directory of a file is not made again.** -/
theorem makeDirectories_eq {names : List String} {name : String}
    (h : ∀ n ∈ names ++ [name], IsName n) (hfile : disk.isFile (ofNames (names ++ [name])) = true)
    (hmade : disk.makeDirectories time (ofNames names) = .ok after) : after = disk := by
  obtain ⟨hwalk, hdirectory⟩ := requireDirectory_of_isFile h hfile
  obtain ⟨_, -, hmade⟩ := bind_eq_ok_iff.mp hmade
  obtain ⟨made, hfrom, hmade⟩ := bind_eq_ok_iff.mp hmade
  rw [segments_ofNames fun n hn => h n (List.mem_append_left _ hn), makeDirectoriesFrom] at hfrom
  · obtain ⟨root, hroot, hfrom⟩ := bind_eq_ok_iff.mp hfrom
    obtain rfl := Except.ok.inj hroot
    rw [makeDirectoriesFrom_eq hwalk hdirectory] at hfrom
    obtain rfl := Except.ok.inj hfrom
    exact (Except.ok.inj hmade).symm
  · intro name hname
    contradiction

end Disk

end TypeScriptEngine
