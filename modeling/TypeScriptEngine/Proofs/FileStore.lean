import Mathlib.Data.List.Nodup
import TypeScriptEngine.FileStore
import TypeScriptEngine.Proofs.Path.Normal

/-! # Stores of files

A store is `WellKept` if its files are listed once each, by their normal paths.  Then it is a
partial function of normal paths (`WellKept.get?_eq_some_iff`), whose operations change one file
and leave the others alone.
-/

namespace TypeScriptEngine.FileStore

open TypeScriptEngine.Path

/-- Each file stands in the store once, under its normal path. -/
structure WellKept (store : FileStore) : Prop where
  normal : ∀ file ∈ store.files, file.path.IsNormal
  declared : ∀ file ∈ store.files, file.isDeclaration = file.path.isDeclaration
  distinct : (store.files.map TrackedFile.path).Nodup

theorem wellKept_empty : empty.WellKept where
  normal := fun _ h => by contradiction
  declared := fun _ h => by contradiction
  distinct := List.nodup_nil

variable {store : FileStore} {p q : Path} {text : String} {file : TrackedFile}

@[simp] theorem get?_normalize (store : FileStore) (p : Path) :
    store.get? p.normalize = store.get? p := by
  unfold get?
  rw [normalize_normalize]

@[simp] theorem contains_normalize (store : FileStore) (p : Path) :
    store.contains p.normalize = store.contains p := by
  unfold contains
  rw [get?_normalize]

/-- A store does not see how a path is spelled. -/
theorem contains_congr (h : (p == q) = true) (store : FileStore) :
    store.contains p = store.contains q := by
  rw [← contains_normalize, normalize_congr h, contains_normalize]

/-- A path that is not in the store is none that is. -/
theorem beq_eq_false (hp : store.contains p = false) (hq : store.contains q = true) :
    (p == q) = false := by
  by_contra he
  rw [contains_congr (Bool.not_eq_false _ ▸ he), hq] at hp
  contradiction

@[simp] theorem newFile_path (p : Path) (text : String) : (newFile p text).path = p.normalize := rfl

/-- A file that comes in is listed under its normal path. -/
theorem isNormal_newFile (p : Path) (text : String) : (newFile p text).path.IsNormal :=
  isNormal_normalize p

/-! ## Looking up -/

theorem WellKept.eq_of_path_eq (h : store.WellKept) {a b : TrackedFile} (ha : a ∈ store.files)
    (hb : b ∈ store.files) (he : a.path = b.path) : a = b :=
  List.inj_on_of_nodup_map h.distinct ha hb he

theorem WellKept.get?_eq_some_iff (h : store.WellKept) :
    store.get? p = some file ↔ file ∈ store.files ∧ file.path = p.normalize := by
  constructor
  · intro hget
    have hmem := List.mem_of_find?_eq_some hget
    have hpath : (file.path == p.normalize) = true := by simpa using List.find?_some hget
    exact ⟨hmem, (h.normal file hmem).eq_of_beq (isNormal_normalize p) hpath⟩
  · rintro ⟨hmem, hpath⟩
    cases hget : store.get? p with
    | none =>
      have := List.find?_eq_none.mp hget file hmem
      rw [hpath] at this
      simp at this
    | some found =>
      have hfound := List.mem_of_find?_eq_some hget
      have hp : (found.path == p.normalize) = true := by simpa using List.find?_some hget
      have := (h.normal found hfound).eq_of_beq (isNormal_normalize p) hp
      rw [h.eq_of_path_eq hfound hmem (this.trans hpath.symm)]

theorem WellKept.contains_iff (h : store.WellKept) :
    store.contains p = true ↔ ∃ file ∈ store.files, file.path = p.normalize := by
  unfold contains
  rw [Option.isSome_iff_exists]
  exact exists_congr fun file => h.get?_eq_some_iff

theorem WellKept.contains_of_mem (h : store.WellKept) (hf : file ∈ store.files) :
    store.contains file.path = true :=
  h.contains_iff.mpr ⟨file, hf, (h.normal file hf).symm⟩

theorem WellKept.contains_iff_mem (h : store.WellKept) (hp : p.IsNormal) :
    store.contains p = true ↔ p ∈ store.files.map TrackedFile.path := by
  rw [h.contains_iff, List.mem_map, hp]

/-! ## Changes -/

theorem contains_eq_any (store : FileStore) (p : Path) :
    store.contains p = store.files.any fun file => file.path == p.normalize := by
  unfold contains get?
  rw [List.isSome_find?]

theorem contains_append (files new : List TrackedFile) (p : Path) :
    contains ⟨files ++ new⟩ p =
      (contains ⟨files⟩ p || new.any fun file => file.path == p.normalize) := by
  rw [contains_eq_any, contains_eq_any, List.any_append]

theorem contains_append_newFile (store : FileStore) (p q : Path) (text : String) :
    contains ⟨store.files ++ [newFile p text]⟩ q =
      (store.contains q || p.normalize == q.normalize) := by
  rw [contains_append, List.any_cons, List.any_nil, Bool.or_false, newFile_path]

theorem insertNew_of_not_contains (h : store.contains p = false) (text : String) :
    store.insertNew p text = ⟨store.files ++ [newFile p text]⟩ := by
  rw [insertNew, h]
  rfl

theorem WellKept.append_newFile (h : store.WellKept) (hp : store.contains p = false)
    (text : String) : WellKept ⟨store.files ++ [newFile p text]⟩ where
  normal := by
    intro file hf
    rcases List.mem_append.mp hf with hf | hf
    · exact h.normal file hf
    · exact List.mem_singleton.mp hf ▸ isNormal_newFile p text
  declared := by
    intro file hf
    rcases List.mem_append.mp hf with hf | hf
    · exact h.declared file hf
    · exact List.mem_singleton.mp hf ▸ rfl
  distinct := by
    show ((store.files ++ [newFile p text]).map TrackedFile.path).Nodup
    rw [List.map_append, List.map_singleton, ← List.concat_eq_append, List.nodup_concat]
    refine ⟨fun hmem => ?_, h.distinct⟩
    rw [newFile_path, ← h.contains_iff_mem (isNormal_normalize p), contains_normalize, hp] at hmem
    contradiction

theorem WellKept.insertNew (h : store.WellKept) (p : Path) (text : String) :
    (store.insertNew p text).WellKept := by
  cases hp : store.contains p with
  | true =>
    rw [FileStore.insertNew, hp]
    exact h
  | false =>
    rw [insertNew_of_not_contains hp]
    exact h.append_newFile hp text

/-- The file of an update: the same file, with the next version. -/
def updated (p : Path) (text : String) (file : TrackedFile) : TrackedFile :=
  if file.path == p.normalize then { file with text, version := file.version + 1 } else file

theorem updated_path (p : Path) (text : String) (file : TrackedFile) :
    (updated p text file).path = file.path := by
  unfold updated
  split <;> rfl

theorem upsert_of_contains (h : store.contains p = true) (text : String) :
    store.upsert p text = ⟨store.files.map (updated p text)⟩ := by
  rw [upsert, h]
  rfl

theorem WellKept.upsert (h : store.WellKept) (p : Path) (text : String) :
    (store.upsert p text).WellKept := by
  cases hp : store.contains p with
  | false =>
    rw [FileStore.upsert, hp]
    exact h.insertNew p text
  | true =>
    rw [upsert_of_contains hp]
    refine ⟨?_, ?_, ?_⟩
    · intro file hf
      obtain ⟨old, hold, rfl⟩ := List.mem_map.mp hf
      rw [updated_path]
      exact h.normal old hold
    · intro file hf
      obtain ⟨old, hold, rfl⟩ := List.mem_map.mp hf
      rw [updated_path, ← h.declared old hold]
      unfold updated
      split <;> rfl
    · show ((store.files.map (updated p text)).map TrackedFile.path).Nodup
      rw [List.map_map, show TrackedFile.path ∘ updated p text = TrackedFile.path from
        funext (updated_path p text)]
      exact h.distinct

theorem contains_upsert (hp : store.contains p = true) (text : String) (q : Path) :
    (store.upsert p text).contains q = store.contains q := by
  rw [upsert_of_contains hp, contains_eq_any, contains_eq_any, List.any_map]
  congr 1
  funext file
  rw [Function.comp_apply, updated_path]

/-- An update is seen at its own path only. -/
theorem get?_upsert (hp : store.contains p = true) (text : String) (q : Path) :
    (store.upsert p text).get? q = (store.get? q).map (updated p text) := by
  rw [upsert_of_contains hp]
  unfold get?
  rw [List.find?_map, Function.comp_def]
  simp only [updated_path]

theorem get?_upsert_of_ne (hp : store.contains p = true) (text : String)
    (hne : p.normalize ≠ q.normalize) : (store.upsert p text).get? q = store.get? q := by
  rw [get?_upsert hp]
  cases hq : store.get? q with
  | none => rfl
  | some file =>
    have hpath : (file.path == q.normalize) = true := by simpa using List.find?_some hq
    have hother : (file.path == p.normalize) = false := by
      by_contra hb
      refine hne ((isNormal_normalize p).eq_of_beq (isNormal_normalize q) ?_)
      exact BEq.trans (BEq.symm (Bool.not_eq_false _ ▸ hb)) hpath
    rw [Option.map_some, updated, hother]
    rfl

/-- New files do not hide those that are there. -/
theorem get?_append (hp : store.contains p = true) (new : List TrackedFile) :
    get? ⟨store.files ++ new⟩ p = store.get? p := by
  obtain ⟨file, hfile⟩ := Option.isSome_iff_exists.mp hp
  unfold get? at hfile ⊢
  rw [List.find?_append, hfile]
  rfl

end TypeScriptEngine.FileStore
