import Mathlib.Logic.Relation
import TypeScriptEngine.Graph.Cycle

/-! # What a closure collects

`Leads g a b` is an edge of a finite graph.  The search of `closure` collects nothing but the nodes
that it was given and those behind its queue (`reflTransGen_of_mem_closure`), and what it collects
is closed under edges (`isIn_closure_of_leads`).  So `reachable` is the transitive closure of the
edges (`isIn_reachable_iff`).
-/

namespace TypeScriptEngine.Graph

open Relation

variable {α : Type} [BEq α] [EquivBEq α] {g : Adjacency α} {a b c : α} {seen queue xs : List α}

/-! ## Edges -/

/-- There is an edge from `a` to `b`. -/
def Leads (g : Adjacency α) (a b : α) : Prop := isIn b (successors g a) = true

omit [EquivBEq α] in
theorem isIn_iff_exists : isIn a xs = true ↔ ∃ b ∈ xs, (b == a) = true := List.any_eq_true

theorem isIn_of_mem_list (h : a ∈ xs) : isIn a xs = true := isIn_iff_exists.mpr ⟨a, h, BEq.rfl⟩

theorem isIn_of_beq (h : (a == b) = true) (ha : isIn a xs = true) : isIn b xs = true := by
  obtain ⟨c, hc, he⟩ := isIn_iff_exists.mp ha
  exact isIn_iff_exists.mpr ⟨c, hc, BEq.trans he h⟩

theorem successors_congr (h : (a == b) = true) (g : Adjacency α) :
    successors g a = successors g b := by
  unfold successors
  congr 3
  funext entry
  exact Bool.eq_iff_iff.mpr ⟨fun he => BEq.trans he h, fun he => BEq.trans he (BEq.symm h)⟩

theorem Leads.of_mem (h : b ∈ successors g a) : Leads g a b := isIn_of_mem_list h

theorem Leads.congr_right (h : Leads g a b) (hbc : (b == c) = true) : Leads g a c :=
  isIn_of_beq hbc h

/-- The end of a path may be spelled in another way. -/
theorem transGen_congr_right (h : TransGen (Leads g) a b) (hbc : (b == c) = true) :
    TransGen (Leads g) a c := by
  obtain ⟨m, hm, hedge⟩ := TransGen.tail'_iff.mp h
  exact TransGen.tail' hm (hedge.congr_right hbc)

/-! ## The search is sound -/

/-- **The search finds nothing but what lies behind its queue.** -/
theorem reflTransGen_of_mem_closure (h : b ∈ closure g seen queue) :
    b ∈ seen ∨ ∃ a ∈ queue, ReflTransGen (Leads g) a b := by
  -- on the search: the head of the queue is looked at, and its successors come behind the rest
  fun_induction closure g seen queue with
  | case1 seen => exact Or.inl h
  | case2 seen a queue hseen ih =>
    refine (ih h).imp_right ?_
    rintro ⟨c, hc, hpath⟩
    exact ⟨c, List.mem_cons_of_mem _ hc, hpath⟩
  | case3 seen a queue hseen hnone ih =>
    rcases ih h with hb | ⟨c, hc, hpath⟩
    · rcases List.mem_cons.mp hb with rfl | hb
      · exact Or.inr ⟨b, List.mem_cons_self .., .refl⟩
      · exact Or.inl hb
    · exact Or.inr ⟨c, List.mem_cons_of_mem _ hc, hpath⟩
  | case4 seen a queue hseen n next hnext ih =>
    rcases ih h with hb | ⟨c, hc, hpath⟩
    · rcases List.mem_cons.mp hb with rfl | hb
      · exact Or.inr ⟨b, List.mem_cons_self .., .refl⟩
      · exact Or.inl hb
    · rcases List.mem_append.mp hc with hc | hc
      · exact Or.inr ⟨c, List.mem_cons_of_mem _ hc, hpath⟩
      · have hedge : Leads g a c := .of_mem (hnext ▸ (List.mem_filter.mp hc).1)
        exact Or.inr ⟨a, List.mem_cons_self .., .head hedge hpath⟩

/-- What the search finds is spelled as it was given, or as a successor of some node. -/
theorem mem_of_mem_closure (h : b ∈ closure g seen queue) :
    b ∈ seen ∨ b ∈ queue ∨ ∃ a, b ∈ successors g a := by
  fun_induction closure g seen queue with
  | case1 seen => exact Or.inl h
  | case2 seen a queue hseen ih =>
    exact (ih h).imp_right fun hb => hb.imp_left (List.mem_cons_of_mem _)
  | case3 seen a queue hseen hnone ih =>
    rcases ih h with hb | hb | hb
    · rcases List.mem_cons.mp hb with rfl | hb
      · exact Or.inr (Or.inl (List.mem_cons_self ..))
      · exact Or.inl hb
    · exact Or.inr (Or.inl (List.mem_cons_of_mem _ hb))
    · exact Or.inr (Or.inr hb)
  | case4 seen a queue hseen n next hnext ih =>
    rcases ih h with hb | hb | hb
    · rcases List.mem_cons.mp hb with rfl | hb
      · exact Or.inr (Or.inl (List.mem_cons_self ..))
      · exact Or.inl hb
    · rcases List.mem_append.mp hb with hb | hb
      · exact Or.inr (Or.inl (List.mem_cons_of_mem _ hb))
      · exact Or.inr (Or.inr ⟨a, hnext ▸ (List.mem_filter.mp hb).1⟩)
    · exact Or.inr (Or.inr hb)

theorem exists_mem_successors (h : b ∈ reachable g a) : ∃ c, b ∈ successors g c := by
  rcases mem_of_mem_closure (List.mem_reverse.mp h) with hb | hb | hb
  · contradiction
  · exact ⟨a, hb⟩
  · exact hb

/-! ## The search is complete -/

/-- Whatever the nodes that were seen lead to was seen, or is in the queue. -/
def Closing (g : Adjacency α) (seen queue : List α) : Prop :=
  ∀ a b, isIn a seen = true → Leads g a b → isIn b seen = true ∨ isIn b queue = true

omit [EquivBEq α] in
theorem closing_nil (g : Adjacency α) (queue : List α) : Closing g [] queue :=
  fun _ _ h => by contradiction

/-- A node of the queue that was seen can be passed over. -/
theorem Closing.pass (h : Closing g seen (a :: queue)) (ha : isIn a seen = true) :
    Closing g seen queue := by
  intro c d hc hedge
  rcases h c d hc hedge with hd | hd
  · exact Or.inl hd
  · rw [isIn_cons] at hd
    rcases Bool.or_eq_true _ _ ▸ hd with hd | hd
    · exact Or.inl (isIn_of_beq hd ha)
    · exact Or.inr hd

/-- A node of the queue is seen once its successors are in the queue. -/
theorem Closing.take (h : Closing g seen (a :: queue)) {next : List α}
    (hnext : ∀ b, Leads g a b → isIn b (a :: seen) = true ∨ isIn b next = true) :
    Closing g (a :: seen) (queue ++ next) := by
  intro c d hc hedge
  rw [isIn_append]
  rw [isIn_cons] at hc
  rcases Bool.or_eq_true _ _ ▸ hc with hc | hc
  · have hedge : Leads g a d := by
      unfold Leads at hedge ⊢
      rwa [successors_congr hc]
    exact (hnext d hedge).imp_right fun hd => by rw [hd, Bool.or_true]
  · rcases h c d hc hedge with hd | hd
    · exact Or.inl (by rw [isIn_cons, hd, Bool.or_true])
    · rw [isIn_cons] at hd
      rcases Bool.or_eq_true _ _ ▸ hd with hd | hd
      · exact Or.inl (by rw [isIn_cons, hd, Bool.true_or])
      · exact Or.inr (by rw [hd, Bool.true_or])

omit [EquivBEq α] in
/-- What holds of the nodes seen and queued after a node is taken up held of them before. -/
theorem of_take {P : α → Prop} (next : List α)
    (h : ∀ c, isIn c (a :: seen) = true ∨ isIn c (queue ++ next) = true → P c) :
    ∀ c, isIn c seen = true ∨ isIn c (a :: queue) = true → P c := by
  rintro c (hc | hc)
  · exact h c (Or.inl (by rw [isIn_cons, hc, Bool.or_true]))
  · rw [isIn_cons] at hc
    rcases Bool.or_eq_true _ _ ▸ hc with hc | hc
    · exact h c (Or.inl (by rw [isIn_cons, hc, Bool.true_or]))
    · exact h c (Or.inr (by rw [isIn_append, hc, Bool.true_or]))

/-- **The search keeps what it has, and ends with a set that is closed under edges.** -/
theorem closure_spec (h : Closing g seen queue) :
    (∀ a, isIn a seen = true ∨ isIn a queue = true → isIn a (closure g seen queue) = true) ∧
      Closing g (closure g seen queue) [] := by
  fun_induction closure g seen queue with
  | case1 seen =>
    refine ⟨?_, h⟩
    rintro a (ha | ha)
    · exact ha
    · contradiction
  | case2 seen a queue hseen ih =>
    obtain ⟨hkeeps, hclosed⟩ := ih (h.pass hseen)
    refine ⟨?_, hclosed⟩
    rintro c (hc | hc)
    · exact hkeeps c (Or.inl hc)
    · rw [isIn_cons] at hc
      rcases Bool.or_eq_true _ _ ▸ hc with hc | hc
      · exact hkeeps c (Or.inl (isIn_of_beq hc hseen))
      · exact hkeeps c (Or.inr hc)
  | case3 seen a queue hseen hnone ih =>
    have htake : Closing g (a :: seen) (queue ++ []) := by
      refine h.take fun b hedge => ?_
      unfold Leads at hedge
      rw [hnone] at hedge
      contradiction
    rw [List.append_nil] at htake
    obtain ⟨hkeeps, hclosed⟩ := ih htake
    refine ⟨of_take [] fun c hc => ?_, hclosed⟩
    exact hkeeps c (List.append_nil queue ▸ hc)
  | case4 seen a queue hseen n next hnext ih =>
    have htake : Closing g (a :: seen)
        (queue ++ (n :: next).filter fun b => !isIn b (a :: seen)) := by
      refine h.take fun b hedge => ?_
      cases hb : isIn b (a :: seen) with
      | true => exact Or.inl rfl
      | false =>
        unfold Leads at hedge
        rw [hnext] at hedge
        obtain ⟨c, hc, he⟩ := isIn_iff_exists.mp hedge
        refine Or.inr (isIn_iff_exists.mpr ⟨c, List.mem_filter.mpr ⟨hc, ?_⟩, he⟩)
        cases hin : isIn c (a :: seen) with
        | false => rfl
        | true =>
          rw [isIn_of_beq he hin] at hb
          contradiction
    obtain ⟨hkeeps, hclosed⟩ := ih htake
    exact ⟨of_take _ hkeeps, hclosed⟩

/-- **`reachable` is the transitive closure of the edges.** -/
theorem isIn_reachable_iff : isIn b (reachable g a) = true ↔ TransGen (Leads g) a b := by
  have hreverse : isIn b (reachable g a) = isIn b (closure g [] (successors g a)) := by
    unfold reachable isIn
    exact List.any_reverse
  obtain ⟨hkeeps, hclosed⟩ := closure_spec (closing_nil g (successors g a))
  rw [hreverse]
  clear hreverse
  constructor
  · intro hb
    obtain ⟨c, hc, he⟩ := isIn_iff_exists.mp hb
    rcases reflTransGen_of_mem_closure hc with hnil | ⟨d, hd, hpath⟩
    · contradiction
    · exact transGen_congr_right (TransGen.head' (.of_mem hd) hpath) he
  · intro hpath
    induction hpath with
    | single hedge => exact hkeeps _ (Or.inr hedge)
    | tail _ hedge ih =>
      rcases hclosed _ _ ih hedge with hin | hin
      · exact hin
      · contradiction

end TypeScriptEngine.Graph
