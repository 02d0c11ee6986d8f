import Mathlib.Data.List.DropRight
import TypeScriptEngine.Proofs.Path.Canonical

/-! # Relative paths lead back

From one absolute path to another the way goes up along the names of the first behind the names that
both begin with, and down along the names of the second (`segments_relativeTo`).  Walked from the
first path, each segment `..` takes back one of its names, so that the way ends at the second
(`normalize_join_relativeTo`).
-/

namespace TypeScriptEngine.Path

open Segment

/-- Up from names there is one segment for each. -/
theorem parents_of_names (names : List String) :
    ((names.map Segment.name).filter (· ≠ .here)).map (fun _ => Segment.up) =
      List.replicate names.length .up := by
  have hkept : (names.map Segment.name).filter (· ≠ .here) = names.map .name := by
    refine List.filter_eq_self.mpr fun s hs => ?_
    obtain ⟨name, -, rfl⟩ := List.mem_map.mp hs
    rfl
  rw [hkept, List.map_const', List.length_map]

/-- What two lists of names have behind their common beginning. -/
def apart : List String → List String → List String × List String
  | a :: as, b :: bs => if a = b then apart as bs else (a :: as, b :: bs)
  | as, bs => (as, bs)

theorem exists_common (base target : List String) :
    ∃ common, base = common ++ (apart base target).1 ∧ target = common ++ (apart base target).2 := by
  induction base generalizing target with
  | nil => exact ⟨[], rfl, rfl⟩
  | cons b base ih =>
    cases target with
    | nil => exact ⟨[], rfl, rfl⟩
    | cons t target =>
      rw [apart]
      split
      · rename_i h
        obtain ⟨common, hbase, htarget⟩ := ih target
        exact ⟨b :: common, congrArg (b :: ·) hbase, h ▸ congrArg (b :: ·) htarget⟩
      · exact ⟨[], rfl, rfl⟩

/-- Between lists of names the common beginning is passed over. -/
theorem relativeSegments_names (base target : List String) :
    relativeSegments (base.map .name) (target.map .name) =
      List.replicate (apart base target).1.length .up ++ (apart base target).2.map .name := by
  induction base generalizing target with
  | nil => rfl
  | cons b base ih =>
    have hparents := parents_of_names (b :: base)
    cases target with
    | nil =>
      rw [apart, ← hparents]
      · rfl
      · exact fun _ _ _ _ _ h => nomatch h
    | cons t target =>
      rw [List.map_cons, List.map_cons, relativeSegments, apart]
      by_cases h : b = t
      · rw [if_pos (congrArg Segment.name h), if_pos h, ih]
      · rw [if_neg (mt Segment.name.inj h), if_neg h, ← hparents]
        rfl

/-- Some segments `..` and names behind them are read back, even if there are none. -/
theorem segments_ofSegments_parents (k : Nat) {names : List String}
    (h : ∀ name ∈ names, IsName name) :
    (ofSegments (List.replicate k .up ++ names.map .name)).segments =
      List.replicate k .up ++ names.map .name := by
  by_cases hnil : List.replicate k Segment.up ++ names.map .name = []
  · rw [hnil]
    rfl
  · exact segments_ofSegments ⟨_, names, Or.inr ⟨k, rfl⟩, h, rfl⟩ hnil

/-- The walk along a path ends with the names of its normal form. -/
theorem foldl_step_of_normalize {p : Path} {names : List String} (h : ∀ name ∈ names, IsName name)
    (hp : p.normalize = ofNames names) :
    p.segments.foldl step [] = (names.map Segment.name).reverse ++ [.root] := by
  rw [← foldl_step_normalize, hp, segments_ofNames h, List.foldl_cons, foldl_step_names]
  rfl

/-- The names of the normal form of a path. -/
def names (p : Path) : List String := p.normalize.segments.filterMap name?

theorem names_of_normalize {p : Path} {names : List String} (h : ∀ name ∈ names, IsName name)
    (hp : p.normalize = ofNames names) : p.names = names := by
  have hnames : (names.map Segment.name).filterMap name? = names := by
    rw [List.filterMap_map]
    exact List.filterMap_some
  rw [Path.names, hp, segments_ofNames h]
  exact hnames

/-- **An absolute path is, in its normal form, spelled by its names.** -/
theorem normalize_eq_ofNames {p : Path} (h : p.isAbsolute = true) :
    (∀ name ∈ p.names, IsName name) ∧ p.normalize = ofNames p.names := by
  obtain ⟨names, hnames, hp⟩ := exists_ofNames h
  rw [names_of_normalize hnames hp]
  exact ⟨hnames, hp⟩

theorem segments_of_isAbsolute {p : Path} (h : p.isAbsolute = true) :
    p.normalize.segments = .root :: p.names.map .name := by
  obtain ⟨hnames, hp⟩ := normalize_eq_ofNames h
  rw [hp, segments_ofNames hnames]

theorem normalize_ofNames {names : List String} (h : ∀ name ∈ names, IsName name) :
    (ofNames names).normalize = ofNames names :=
  isNormal_ofSegments (settled_root h) (List.cons_ne_nil _ _)

theorem names_ofNames {names : List String} (h : ∀ name ∈ names, IsName name) :
    (ofNames names).names = names :=
  names_of_normalize h (normalize_ofNames h)

theorem names_normalize (p : Path) : p.normalize.names = p.names := by
  rw [Path.names, normalize_normalize, Path.names]

/-- A walk that ends with some names has their path as its normal form. -/
theorem normalize_of_foldl_step {p : Path} {names : List String}
    (h : p.segments.foldl step [] = (names.map Segment.name).reverse ++ [.root]) :
    p.normalize = ofNames names := by
  have hnormal : normalSegments p.segments = .root :: names.map .name := by
    rw [normalSegments, h]
    simp
  rw [normalize, hnormal]
  rfl

/-- **The segments that lead from one absolute path to another.** -/
theorem segments_relativeTo {base target : Path} (hbase : base.isAbsolute = true)
    (htarget : target.isAbsolute = true) :
    (relativeTo base target).segments =
      List.replicate (apart base.names target.names).1.length .up ++
        (apart base.names target.names).2.map .name := by
  obtain ⟨hbases, hbase'⟩ := normalize_eq_ofNames hbase
  obtain ⟨htargets, htarget'⟩ := normalize_eq_ofNames htarget
  have hboth : ¬ (base.normalize.isAbsolute ≠ target.normalize.isAbsolute) := by
    rw [isAbsolute_normalize, isAbsolute_normalize, hbase, htarget]
    exact not_not.mpr rfl
  rw [relativeTo, if_neg hboth, hbase', htarget', segments_ofNames hbases, segments_ofNames htargets,
    relativeSegments, if_pos rfl, relativeSegments_names]
  obtain ⟨common, -, hcommon⟩ := exists_common base.names target.names
  exact segments_ofSegments_parents _ fun name hname =>
    htargets name (hcommon ▸ List.mem_append_right _ hname)

/-- Each segment `..` takes back one of the names that were walked, as long as there are any. -/
theorem foldl_step_ups (k : Nat) (names : List String) :
    (List.replicate k Segment.up).foldl step ((names.map .name).reverse ++ [.root]) =
      ((names.rdrop k).map Segment.name).reverse ++ [.root] := by
  induction k generalizing names with
  | zero => rw [List.rdrop_zero]; rfl
  | succ k ih =>
    rw [List.replicate_succ, List.foldl_cons]
    rcases List.eq_nil_or_concat names with rfl | ⟨init, last, rfl⟩
    · -- at the root there is nothing to take back
      rw [List.rdrop_nil]
      exact (ih []).trans (by rw [List.rdrop_nil])
    · rw [List.concat_eq_append, List.rdrop_concat_succ, ← ih, List.map_append, List.reverse_append]
      rfl

/-- **What leads from one absolute path to another leads back to it.** -/
theorem normalize_join_relativeTo {base target : Path} (hbase : base.isAbsolute = true)
    (htarget : target.isAbsolute = true) :
    (base.join (relativeTo base target)).normalize = target.normalize := by
  obtain ⟨hbases, hbase'⟩ := normalize_eq_ofNames hbase
  obtain ⟨htargets, htarget'⟩ := normalize_eq_ofNames htarget
  have hrelative := segments_relativeTo hbase htarget
  obtain ⟨common, habove, hbelow⟩ := exists_common base.names target.names
  generalize apart base.names target.names = sides at hrelative habove hbelow
  obtain ⟨above, below⟩ := sides
  have hback : (common ++ above).rdrop above.length = common := by
    rw [List.rdrop, List.length_append, Nat.add_sub_cancel, List.take_left]
  rw [habove] at hbases hbase'
  rw [hbelow] at htargets htarget'
  refine normalize_eq_of_foldl_step ?_
  calc (base.join (relativeTo base target)).segments.foldl step []
      = (List.replicate above.length Segment.up ++ below.map Segment.name).foldl step
          (((common ++ above).map Segment.name).reverse ++ [Segment.root]) := by
        rw [foldl_step_join, hrelative, foldl_step_of_normalize hbases hbase']
    _ = (below.map Segment.name).reverse ++
          ((common.map Segment.name).reverse ++ [Segment.root]) := by
        rw [List.foldl_append, foldl_step_ups, hback, foldl_step_names]
    _ = target.segments.foldl step [] := by
        rw [foldl_step_of_normalize htargets htarget', List.map_append, List.reverse_append,
          List.append_assoc]

end TypeScriptEngine.Path
