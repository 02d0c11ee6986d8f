import Mathlib.Data.List.Basic
import TypeScriptEngine.Graph.Closure
import TypeScriptEngine.Path.Set

/-! # The order of paths, ascending lists and maps

`Path.compare` is a total order on paths up to `==`.  So a list that ascends strictly is determined
by its members (`eq_of_isIn_iff`), `setOf` is a set in the proper sense, and a map of paths is a
partial function that does not see how a path is spelled (`find?_congr`).
-/

namespace TypeScriptEngine

open Std TypeScriptEngine.Graph

/-! ## The order -/

namespace Segment

/-- The name of a segment, empty if it has none. -/
def nameText (s : Segment) : String := s.name?.getD ""

theorem compare_eq_compareLex :
    Segment.compare = compareLex (compareOn rank) (compareOn nameText) := by
  funext a b
  cases a <;> cases b <;>
    simp [Segment.compare, compareLex, compareOn, rank, nameText, name?]
  all_goals rfl

instance : TransCmp Segment.compare := by
  rw [compare_eq_compareLex]
  infer_instance

instance : LawfulEqCmp Segment.compare where
  eq_of_compare {a b} h := by
    cases a <;> cases b <;>
      simp_all [Segment.compare, rank, Ord.compare, compareOfLessAndEq]
    exact LawfulEqOrd.eq_of_compare h

end Segment

namespace Path

instance : TransCmp Path.compare where
  eq_swap {p q} :=
    @OrientedCmp.eq_swap _ (List.compareLex Segment.compare) _ p.segments q.segments
  isLE_trans h₁ h₂ := @TransCmp.isLE_trans _ (List.compareLex Segment.compare) _ _ _ _ h₁ h₂

/-- Two paths stand at the same place of the order if they are the same. -/
theorem compare_eq_iff {p q : Path} : p.compare q = .eq ↔ (p == q) = true := by
  rw [beq_iff]
  exact @LawfulEqCmp.compare_eq_iff_eq _ (List.compareLex Segment.compare) _ _ _

theorem compare_self (p : Path) : p.compare p = .eq := compare_eq_iff.mpr BEq.rfl

theorem beq_false_of_lt {p q : Path} (h : p.compare q = .lt) : (p == q) = false := by
  by_contra hb
  rw [compare_eq_iff.mpr (Bool.not_eq_false _ ▸ hb)] at h
  contradiction

/-! ## Membership -/

theorem isIn_iff {p : Path} {ps : List Path} : isIn p ps = true ↔ ∃ q ∈ ps, (q == p) = true := by
  simp [isIn]

theorem isIn_of_mem {p : Path} {ps : List Path} (h : p ∈ ps) : isIn p ps = true :=
  isIn_iff.mpr ⟨p, h, BEq.rfl⟩

theorem isIn_congr {p q : Path} (ps : List Path) (h : (p == q) = true) : isIn p ps = isIn q ps := by
  apply Bool.eq_iff_iff.mpr
  rw [isIn_iff, isIn_iff]
  constructor
  · rintro ⟨r, hr, he⟩
    exact ⟨r, hr, BEq.trans he h⟩
  · rintro ⟨r, hr, he⟩
    exact ⟨r, hr, BEq.trans he (BEq.symm h)⟩

/-! ## Ascending lists -/

/-- The list ascends strictly, so that no path is in it twice. -/
def Ascending (ps : List Path) : Prop := ps.Pairwise fun p q => p.compare q = .lt

theorem mem_of_mem_insertInto {p q : Path} {ps : List Path} (h : q ∈ insertInto p ps) :
    q = p ∨ q ∈ ps := by
  induction ps with
  | nil => simpa [insertInto] using h
  | cons r ps ih =>
    unfold insertInto at h
    split at h
    · simpa using h
    · exact Or.inr h
    · rcases List.mem_cons.mp h with rfl | h
      · exact Or.inr (List.mem_cons_self ..)
      · exact (ih h).imp_right (List.mem_cons_of_mem _)

@[simp] theorem isIn_insertInto (p q : Path) (ps : List Path) :
    isIn q (insertInto p ps) = (p == q || isIn q ps) := by
  induction ps with
  | nil => simp [insertInto, isIn]
  | cons r ps ih =>
    unfold insertInto
    split
    · simp [isIn]
    · rename_i he
      have hpr := compare_eq_iff.mp he
      by_cases hq : (p == q) = true
      · have hrq := BEq.trans (BEq.symm hpr) hq
        simp [isIn, hrq]
      · simp [hq]
    · show (r == q || isIn q (insertInto p ps)) = (p == q || (r == q || isIn q ps))
      rw [ih, Bool.or_left_comm]

theorem ascending_insertInto (p : Path) {ps : List Path} (h : Ascending ps) :
    Ascending (insertInto p ps) := by
  induction ps with
  | nil => exact List.pairwise_singleton _ _
  | cons r ps ih =>
    obtain ⟨hr, hps⟩ := List.pairwise_cons.mp h
    unfold insertInto
    split
    · rename_i hlt
      refine List.pairwise_cons.mpr ⟨?_, h⟩
      intro q hq
      rcases List.mem_cons.mp hq with rfl | hq
      · exact hlt
      · exact TransCmp.lt_trans hlt (hr q hq)
    · exact h
    · rename_i hgt
      refine List.pairwise_cons.mpr ⟨?_, ih hps⟩
      intro q hq
      rcases mem_of_mem_insertInto hq with rfl | hq
      · exact OrientedCmp.lt_of_gt hgt
      · exact hr q hq

theorem Ascending.filter {ps : List Path} (h : Ascending ps) (f : Path → Bool) :
    Ascending (ps.filter f) :=
  List.Pairwise.filter f h

theorem ascending_foldl_insertInto (ps : List Path) {set : List Path} (h : Ascending set) :
    Ascending (ps.foldl (fun set p => insertInto p set) set) := by
  induction ps generalizing set with
  | nil => exact h
  | cons p ps ih => exact ih (ascending_insertInto p h)

theorem isIn_foldl_insertInto (q : Path) (ps set : List Path) :
    isIn q (ps.foldl (fun set p => insertInto p set) set) = (isIn q ps || isIn q set) := by
  induction ps generalizing set with
  | nil => rfl
  | cons p ps ih =>
    rw [List.foldl_cons, ih, isIn_insertInto]
    show _ = (p == q || isIn q ps || isIn q set)
    rw [Bool.or_left_comm, Bool.or_assoc]

theorem mem_of_mem_foldl_insertInto {q : Path} {ps set : List Path}
    (h : q ∈ ps.foldl (fun set p => insertInto p set) set) : q ∈ ps ∨ q ∈ set := by
  induction ps generalizing set with
  | nil => exact Or.inr h
  | cons p ps ih =>
    rcases ih h with h | h
    · exact Or.inl (List.mem_cons_of_mem _ h)
    · rcases mem_of_mem_insertInto h with rfl | h
      · exact Or.inl (List.mem_cons_self ..)
      · exact Or.inr h

theorem ascending_setOf (ps : List Path) : Ascending (setOf ps) :=
  ascending_foldl_insertInto ps List.Pairwise.nil

@[simp] theorem isIn_setOf (q : Path) (ps : List Path) : isIn q (setOf ps) = isIn q ps := by
  rw [setOf, isIn_foldl_insertInto]
  simp [isIn]

theorem mem_of_mem_setOf {q : Path} {ps : List Path} (h : q ∈ setOf ps) : q ∈ ps := by
  simpa using mem_of_mem_foldl_insertInto h

/-- The head of an ascending list is not found behind it. -/
theorem isIn_tail_eq_false {p : Path} {ps : List Path} (h : Ascending (p :: ps)) :
    isIn p ps = false := by
  by_contra hin
  obtain ⟨q, hq, he⟩ := isIn_iff.mp (Bool.not_eq_false _ ▸ hin)
  have hne := beq_false_of_lt ((List.pairwise_cons.mp h).1 q hq)
  rw [BEq.symm he] at hne
  contradiction

theorem lt_of_isIn_tail {p q : Path} {ps : List Path} (h : Ascending (p :: ps))
    (hq : isIn q ps = true) : p.compare q = .lt := by
  obtain ⟨r, hr, he⟩ := isIn_iff.mp hq
  exact TransCmp.lt_of_lt_of_eq ((List.pairwise_cons.mp h).1 r hr) (compare_eq_iff.mpr he)

/-- **An ascending list is determined by its members,** if each member has one spelling. -/
theorem eq_of_isIn_iff {ps qs : List Path} (hps : Ascending ps) (hqs : Ascending qs)
    (hspell : ∀ p ∈ ps, ∀ q ∈ qs, (p == q) = true → p = q)
    (hin : ∀ r, isIn r ps = isIn r qs) : ps = qs := by
  induction ps generalizing qs with
  | nil =>
    cases qs with
    | nil => rfl
    | cons q qs =>
      have := hin q
      rw [isIn_of_mem (List.mem_cons_self ..)] at this
      contradiction
  | cons p ps ih =>
    cases qs with
    | nil =>
      have := hin p
      rw [isIn_of_mem (List.mem_cons_self ..)] at this
      contradiction
    | cons q qs =>
      -- each head is found in the other list, and neither can stand behind the other
      have hp : (q == p || isIn p qs) = true := by
        rw [← show isIn p (p :: ps) = (q == p || isIn p qs) from hin p]
        exact isIn_of_mem (List.mem_cons_self ..)
      have hq : (p == q || isIn q ps) = true := by
        rw [show (p == q || isIn q ps) = isIn q (q :: qs) from hin q]
        exact isIn_of_mem (List.mem_cons_self ..)
      have hpq : (p == q) = true := by
        rcases Bool.or_eq_true _ _ ▸ hp with hp | hp
        · exact BEq.symm hp
        · rcases Bool.or_eq_true _ _ ▸ hq with hq | hq
          · exact hq
          · have h₁ := lt_of_isIn_tail hqs hp
            have h₂ := lt_of_isIn_tail hps hq
            exact absurd h₂ (OrientedCmp.not_lt_of_lt h₁)
      have he : p = q := hspell p (List.mem_cons_self ..) q (List.mem_cons_self ..) hpq
      subst he
      congr 1
      refine ih (List.Pairwise.of_cons hps) (List.Pairwise.of_cons hqs) ?_ ?_
      · exact fun a ha b hb => hspell a (List.mem_cons_of_mem _ ha) b (List.mem_cons_of_mem _ hb)
      · intro r
        have hr : (p == r || isIn r ps) = (p == r || isIn r qs) := hin r
        by_cases hpr : (p == r) = true
        · rw [← isIn_congr ps hpr, ← isIn_congr qs hpr, isIn_tail_eq_false hps,
            isIn_tail_eq_false hqs]
        · simpa [hpr] using hr

/-- The members of an ascending list differ. -/
theorem Ascending.nodup {ps : List Path} (h : Ascending ps) : ps.Nodup := by
  refine List.Pairwise.imp ?_ h
  rintro p q hlt rfl
  rw [compare_self] at hlt
  contradiction

/-! ## Maps -/

section Maps

variable {β : Type}

/-- No path is listed twice. -/
def DistinctKeys (map : List (Path × β)) : Prop := map.Pairwise fun a b => (a.1 == b.1) = false

/-- A map does not see how a path is spelled. -/
theorem find?_congr {p q : Path} (h : (p == q) = true) (map : List (Path × β)) :
    find? p map = find? q map := by
  unfold find?
  congr 2
  funext entry
  exact Bool.eq_iff_iff.mpr ⟨fun he => BEq.trans he h, fun he => BEq.trans he (BEq.symm h)⟩

theorem find?_cons (p : Path) (entry : Path × β) (map : List (Path × β)) :
    find? p (entry :: map) = if entry.1 == p then some entry.2 else find? p map := by
  unfold find?
  rw [List.find?_cons]
  split <;> simp_all

theorem find?_of_mem {entry : Path × β} {map : List (Path × β)} (hd : DistinctKeys map)
    (h : entry ∈ map) : find? entry.1 map = some entry.2 := by
  induction map with
  | nil => contradiction
  | cons e map ih =>
    obtain ⟨he, hd⟩ := List.pairwise_cons.mp hd
    rw [find?_cons]
    rcases List.mem_cons.mp h with rfl | h
    · simp
    · rw [he entry h]
      exact ih hd h

theorem find?_removeFrom (p q : Path) (map : List (Path × β)) :
    find? q (removeFrom p map) = if p == q then none else find? q map := by
  induction map with
  | nil => simp [removeFrom, find?]
  | cons entry map ih =>
    unfold removeFrom at ih ⊢
    rw [List.filter_cons, find?_cons]
    by_cases he : (entry.1 == p) = true
    · rw [he]
      simp only [Bool.not_true, Bool.false_eq_true, if_false, ih]
      by_cases hpq : (p == q) = true
      · simp [hpq]
      · have hne : (entry.1 == q) = false := by
          by_contra heq
          exact hpq (BEq.trans (BEq.symm he) (Bool.not_eq_false _ ▸ heq))
        simp [hpq, hne]
    · simp only [he, Bool.not_false, if_true, find?_cons, ih]
      by_cases hpq : (p == q) = true
      · have hne : (entry.1 == q) = false := by
          by_contra heq
          exact he (BEq.trans (Bool.not_eq_false _ ▸ heq) (BEq.symm hpq))
        simp [hpq, hne]
      · simp [hpq]

theorem find?_alter (p q : Path) (f : Option β → β) (map : List (Path × β)) :
    find? q (alter p f map) = if p == q then some (f (find? p map)) else find? q map := by
  induction map with
  | nil => simp [alter, find?]
  | cons entry map ih =>
    unfold alter
    by_cases he : (entry.1 == p) = true
    · simp only [he, if_true, find?_cons]
      by_cases hpq : (p == q) = true
      · simp [hpq, BEq.trans he hpq]
      · have hne : (entry.1 == q) = false := by
          by_contra heq
          exact hpq (BEq.trans (BEq.symm he) (Bool.not_eq_false _ ▸ heq))
        simp [hpq, hne]
    · simp only [he, Bool.false_eq_true, if_false, find?_cons, ih]
      by_cases hpq : (p == q) = true
      · have hne : (entry.1 == q) = false := by
          by_contra heq
          exact he (BEq.trans (Bool.not_eq_false _ ▸ heq) (BEq.symm hpq))
        simp [hpq, hne]
      · simp [hpq]

theorem DistinctKeys.removeFrom (p : Path) {map : List (Path × β)} (h : DistinctKeys map) :
    DistinctKeys (removeFrom p map) :=
  List.Pairwise.filter _ h

theorem exists_key_of_mem_alter {p : Path} {f : Option β → β} {map : List (Path × β)}
    {entry : Path × β} (h : entry ∈ alter p f map) :
    entry.1 = p ∨ ∃ e ∈ map, e.1 = entry.1 := by
  induction map with
  | nil => left; simp_all [alter]
  | cons e map ih =>
    unfold alter at h
    split at h
    · rcases List.mem_cons.mp h with rfl | h
      · exact Or.inr ⟨e, List.mem_cons_self .., rfl⟩
      · exact Or.inr ⟨entry, List.mem_cons_of_mem _ h, rfl⟩
    · rcases List.mem_cons.mp h with rfl | h
      · exact Or.inr ⟨entry, List.mem_cons_self .., rfl⟩
      · exact (ih h).imp_right fun ⟨e', he', hk⟩ => ⟨e', List.mem_cons_of_mem _ he', hk⟩

theorem DistinctKeys.alter (p : Path) (f : Option β → β) {map : List (Path × β)}
    (h : DistinctKeys map) : DistinctKeys (alter p f map) := by
  induction map with
  | nil => exact List.pairwise_singleton _ _
  | cons e map ih =>
    obtain ⟨he, hd⟩ := List.pairwise_cons.mp h
    unfold Path.alter
    split
    · exact List.pairwise_cons.mpr ⟨he, hd⟩
    · rename_i hne
      refine List.pairwise_cons.mpr ⟨?_, ih hd⟩
      intro entry hmem
      rcases exists_key_of_mem_alter hmem with hk | ⟨e', he', hk⟩
      · rw [hk]
        exact Bool.not_eq_true _ ▸ hne
      · rw [← hk]
        exact he e' he'

end Maps

end Path

end TypeScriptEngine
