import Mathlib.Data.List.Chain
import TypeScriptEngine.Proofs.Graph.Descent
import TypeScriptEngine.Proofs.Graph.Transitive

/-! # Cycles of files

A search for a cycle goes down a path of edges without repetition, so that an edge back to a node on
the path closes a cycle (`IsPath.isCycle_closeCycle`).  A node is done when all that it leads to is
done, and then no path leads from it back to it (`Descends.leave`).  No step changes that
(`Invariant.step`): so the search finds a cycle if there is one, and what it finds is one
(`cycle_search`).
-/

namespace TypeScriptEngine.Graph

open Relation

variable {α : Type} [BEq α]

/-! ## Cycles and paths -/

/-- A list of nodes that begins and ends with the same node, in which each node leads to the next
one, and no other node occurs twice. -/
structure IsCycle (edge : α → α → Prop) (cycle : List α) : Prop where
  two_le_length : 2 ≤ cycle.length
  closed : ∃ first ∈ cycle.head?, ∃ last ∈ cycle.getLast?, (first == last) = true
  chained : cycle.IsChain edge
  distinct : cycle.dropLast.Pairwise fun a b => (a == b) = false

/-- A path without repetition, the last node first. -/
structure IsPath (g : Adjacency α) (nodes : List α) : Prop where
  chained : nodes.IsChain fun a b => Leads g b a
  distinct : nodes.Pairwise fun a b => (a == b) = false

theorem isPath_nil (g : Adjacency α) : IsPath g [] := ⟨.nil, .nil⟩

variable {g : Adjacency α} {a b node target : α} {cycle nodes roots done seen : List α}

theorem isIn_keys_of_leads (h : Leads g a b) : isIn a (g.map Prod.fst) = true := by
  unfold Leads successors at h
  cases hfind : g.find? fun entry => entry.1 == a with
  | none =>
    rw [hfind] at h
    contradiction
  | some entry =>
    have hentry := List.find?_some hfind
    exact isIn_iff_exists.mpr
      ⟨entry.1, List.mem_map_of_mem (List.mem_of_find?_eq_some hfind), hentry⟩

section

variable [EquivBEq α]

theorem Leads.congr_left (h : Leads g a b) (he : (a == node) = true) : Leads g node b := by
  unfold Leads at h ⊢
  rwa [← successors_congr he]

/-- The nodes of a cycle lead back to themselves. -/
theorem IsCycle.exists_transGen (h : IsCycle (Leads g) cycle) : ∃ a, TransGen (Leads g) a a := by
  obtain ⟨first, hfirst, last, hlast, he⟩ := h.closed
  obtain ⟨rest, rfl⟩ := List.head?_eq_some_iff.mp hfirst
  cases rest with
  | nil => exact absurd h.two_le_length (Nat.not_succ_le_self 1)
  | cons second rest =>
    obtain ⟨hedge, hrest⟩ := List.isChain_cons_cons.mp h.chained
    have hpath := List.relationReflTransGen_of_exists_isChain_cons rest hrest rfl
    have hend : (second :: rest).getLast (List.cons_ne_nil _ _) = last := by
      rw [List.getLast?_cons_cons] at hlast
      exact Option.some.inj ((List.getLast?_eq_some_getLast _).symm.trans hlast)
    rw [hend] at hpath
    exact ⟨first, transGen_congr_right (.head' hedge hpath) (BEq.symm he)⟩

namespace IsPath

/-- A path goes on to a node that is not on it. -/
theorem cons (h : IsPath g nodes) (hedge : ∀ a ∈ nodes.head?, Leads g a target)
    (hnew : isIn target nodes = false) : IsPath g (target :: nodes) := by
  refine ⟨List.isChain_cons.mpr ⟨hedge, h.chained⟩, List.pairwise_cons.mpr ⟨fun a ha => ?_,
    h.distinct⟩⟩
  rw [BEq.comm]
  exact Bool.eq_false_iff.mpr (List.any_eq_false.mp hnew a ha)

omit [EquivBEq α] in
theorem tail (h : IsPath g (node :: nodes)) : IsPath g nodes :=
  ⟨(List.isChain_cons.mp h.chained).2, (List.pairwise_cons.mp h.distinct).2⟩

omit [EquivBEq α] in
/-- A node on a path parts it in two. -/
theorem exists_parts (h : isIn target nodes = true) :
    ∃ front x back, nodes = front ++ x :: back ∧ (x == target) = true ∧
      closeCycle nodes target = (x :: front.reverse) ++ [target] := by
  obtain ⟨x, hx⟩ := Option.isSome_iff_exists.mp (List.find?_isSome.mpr (isIn_iff_exists.mp h))
  obtain ⟨hhit, front, back, rfl, hfront⟩ := List.find?_eq_some_iff_append.mp hx
  refine ⟨front, x, back, rfl, hhit, ?_⟩
  have hbehind : (front ++ x :: back).takeWhile (fun a => !(a == target)) = front := by
    rw [List.takeWhile_append_of_pos hfront, List.takeWhile_cons_of_neg (by simp [hhit]),
      List.append_nil]
  simp only [closeCycle, hbehind, List.drop_left]
  rfl

/-- **An edge back to a node on the path closes a cycle.** -/
theorem isCycle_closeCycle (h : IsPath g (node :: nodes)) (hedge : Leads g node target)
    (hon : isIn target (node :: nodes) = true) :
    IsCycle (Leads g) (closeCycle (node :: nodes) target) := by
  obtain ⟨front, x, back, hnodes, hx, hcycle⟩ := exists_parts hon
  have hsplit : node :: nodes = (x :: front.reverse).reverse ++ back := by simp [hnodes]
  rw [hsplit] at h
  -- the path in the order of its edges begins at the node found and ends where the search is
  have hlast : (x :: front.reverse).getLast? = some node := by
    rw [← List.head?_reverse]
    have hhead := congrArg List.head? hsplit
    rw [List.head?_append_of_ne_nil _ (by simp)] at hhead
    exact hhead.symm
  rw [hcycle]
  refine ⟨by simp, ⟨x, rfl, target, List.getLast?_concat, hx⟩, ?_, ?_⟩
  · refine List.isChain_append.mpr ⟨List.isChain_reverse.mp h.chained.left_of_append,
      .singleton _, fun a ha b hb => ?_⟩
    obtain rfl := Option.some.inj (hlast.symm.trans ha)
    obtain rfl := Option.some.inj hb
    exact hedge
  · rw [List.dropLast_concat]
    refine (List.pairwise_reverse.mp (List.pairwise_append.mp h.distinct).1).imp fun hne => ?_
    rwa [BEq.comm]

end IsPath

end

/-! ## What a search keeps -/

/-- What a node on the path leads to is still to be tried, or was seen: it is done or stands above
the node. -/
def Tried (g : Adjacency α) (seen : List α) : List (Visit α) → Prop
  | [] => True
  | v :: path =>
    (∀ b, Leads g v.node b → isIn b v.pending = true ∨ isIn b seen = true) ∧
      Tried g (v.node :: seen) path

/-- What a search knows on its way. -/
structure Explores (g : Adjacency α) (roots done : List α) (path : List (Visit α)) : Prop where
  isPath : IsPath g (pathNodes path)
  pending : ∀ v ∈ path, ∀ b ∈ v.pending, Leads g v.node b
  /-- No node on the path is done. -/
  undone : ∀ a ∈ pathNodes path, isIn a done = false
  closed : ∀ a b, isIn a done = true → Leads g a b → isIn b done = true
  acyclic : ∀ a, isIn a done = true → ¬ TransGen (Leads g) a a
  /-- A node with successors is a root, on the path or done. -/
  covered : ∀ a b, Leads g a b → isIn a roots = true ∨ isIn a (pathNodes path ++ done) = true

/-- What a search knows between two steps: also, that each successor was tried or is to be. -/
structure Descends (g : Adjacency α) (roots done : List α) (path : List (Visit α)) : Prop
    extends Explores g roots done path where
  tried : Tried g done path

theorem Tried.mono {path : List (Visit α)} {seen' : List α} (h : Tried g seen path)
    (hsub : ∀ b, isIn b seen = true → isIn b seen' = true) : Tried g seen' path := by
  induction path generalizing seen seen' with
  | nil => trivial
  | cons v path ih =>
    refine ⟨fun b hb => (h.1 b hb).imp_right (hsub b), ih h.2 fun b hb => ?_⟩
    rw [isIn_cons, Bool.or_eq_true] at hb ⊢
    exact hb.imp_right (hsub b)

variable [EquivBEq α]

/-- A successor that is tried was seen from then on. -/
theorem Tried.pass {pending : List α} {rest : List (Visit α)}
    (h : Tried g done (⟨node, target :: pending⟩ :: rest)) (htarget : isIn target seen = true)
    (hsub : ∀ b, isIn b done = true → isIn b seen = true) :
    Tried g seen (⟨node, pending⟩ :: rest) := by
  refine ⟨fun b hb => ?_, h.2.mono fun b hb => ?_⟩
  · rcases h.1 b hb with hpending | hdone
    · rw [isIn_cons, Bool.or_eq_true] at hpending
      exact hpending.symm.imp_right fun he => isIn_of_beq he htarget
    · exact .inr (hsub b hdone)
  · rw [isIn_cons, Bool.or_eq_true] at hb ⊢
    exact hb.imp_right (hsub b)

namespace Explores

variable {path rest : List (Visit α)} {root : α} {pending : List α}

omit [EquivBEq α] in
/-- The first successor need not be tried again. -/
theorem drop (h : Explores g roots done (⟨node, target :: pending⟩ :: rest)) :
    Explores g roots done (⟨node, pending⟩ :: rest) where
  isPath := h.isPath
  pending := by
    obtain ⟨hfirst, hrest⟩ := List.forall_mem_cons.mp h.pending
    exact List.forall_mem_cons.mpr ⟨fun b hb => hfirst b (List.mem_cons_of_mem _ hb), hrest⟩
  undone := h.undone
  closed := h.closed
  acyclic := h.acyclic
  covered := h.covered

/-- A root that was taken up is no root any more. -/
theorem skip (h : Explores g (root :: roots) done path)
    (hroot : isIn root (pathNodes path ++ done) = true) : Explores g roots done path := by
  refine { h with covered := fun a b hedge => ?_ }
  rcases h.covered a b hedge with hin | hin
  · rw [isIn_cons, Bool.or_eq_true] at hin
    exact hin.symm.imp_right fun he => isIn_of_beq he hroot
  · exact .inr hin

/-- A new node is taken up at the end of the path. -/
theorem take (h : Explores g roots done path)
    (hedge : ∀ a ∈ (pathNodes path).head?, Leads g a target)
    (hon : isIn target (pathNodes path) = false) (hdone : isIn target done = false) :
    Explores g roots done (⟨target, successors g target⟩ :: path) where
  isPath := h.isPath.cons hedge hon
  pending := List.forall_mem_cons.mpr ⟨fun _ => Leads.of_mem, h.pending⟩
  undone := List.forall_mem_cons.mpr ⟨hdone, h.undone⟩
  closed := h.closed
  acyclic := h.acyclic
  covered := fun a b hab => (h.covered a b hab).imp_right fun hin => by
    show isIn a (target :: (pathNodes path ++ done)) = true
    rw [isIn_cons, hin, Bool.or_true]

end Explores

namespace Descends

variable {path rest : List (Visit α)} {root : α} {pending : List α}

/-- **A node that leads to nothing but what is done is done.** -/
theorem leave (h : Descends g roots done (⟨node, []⟩ :: rest)) :
    Descends g roots (node :: done) rest := by
  obtain ⟨hnode, hundone⟩ := List.forall_mem_cons.mp h.undone
  have hdone : ∀ b, Leads g node b → isIn b done = true := fun b hb =>
    (h.tried.1 b hb).resolve_left Bool.false_ne_true
  have hreach : ∀ a b, isIn a done = true → ReflTransGen (Leads g) a b → isIn b done = true := by
    intro a b ha hpath
    induction hpath with
    | refl => exact ha
    | tail _ hedge ih => exact h.closed _ _ ih hedge
  refine ⟨⟨h.isPath.tail, (List.forall_mem_cons.mp h.pending).2, fun a ha => ?_,
    fun a b ha hedge => ?_, fun a ha hcycle => ?_, fun a b hedge => ?_⟩, h.tried.2⟩
  · have hne := (List.pairwise_cons.mp h.isPath.distinct).1 a ha
    rw [isIn_cons, hne, hundone a ha]
    rfl
  · rw [isIn_cons, Bool.or_eq_true] at ha ⊢
    rcases ha with he | ha
    · exact .inr (hdone b (hedge.congr_left (BEq.symm he)))
    · exact .inr (h.closed a b ha hedge)
  · rw [isIn_cons, Bool.or_eq_true] at ha
    rcases ha with he | ha
    · -- a path back to the node would leave it for what is done, and could not come back
      obtain ⟨b, hedge, hback⟩ := TransGen.head'_iff.mp hcycle
      have hb := hdone b (hedge.congr_left (BEq.symm he))
      have ha := isIn_of_beq (BEq.symm he) (hreach b a hb hback)
      exact Bool.false_ne_true (hnode.symm.trans ha)
    · exact h.acyclic a ha hcycle
  · rw [isIn_leave a done ⟨node, []⟩ rest]
    exact h.covered a b hedge

omit [EquivBEq α] in
/-- Nothing is done before the search begins. -/
theorem start (h : ∀ a b, Leads g a b → isIn a roots = true) : Descends g roots [] [] where
  isPath := isPath_nil g
  pending := fun _ hv => absurd hv List.not_mem_nil
  undone := fun _ ha => absurd ha List.not_mem_nil
  closed := fun _ _ ha => absurd ha Bool.false_ne_true
  acyclic := fun _ ha => absurd ha Bool.false_ne_true
  covered := fun a b hedge => .inl (h a b hedge)
  tried := trivial

omit [EquivBEq α] in
/-- A search that is over without a cycle has found that there is none. -/
theorem not_transGen (h : Descends g [] done []) (a : α) : ¬ TransGen (Leads g) a a := by
  intro hcycle
  obtain ⟨b, hedge, -⟩ := TransGen.head'_iff.mp hcycle
  rcases h.covered a b hedge with hroot | hdone
  · exact Bool.false_ne_true hroot
  · exact h.acyclic a hdone hcycle

end Descends

/-! ## The search -/

namespace Descent

variable {d : Descent α}

/-- What holds of a search in each of its states. -/
def Invariant (g : Adjacency α) : Descent α → Prop
  | searching roots done path => Descends g roots done path
  | ended none => ∀ a, ¬ TransGen (Leads g) a a
  | ended (some cycle) => IsCycle (Leads g) cycle

/-- **Each step keeps the invariant.** -/
theorem Invariant.step (h : Invariant g d) : Invariant g (d.step g) := by
  fun_cases Descent.step g d with
  | case1 cycle? => exact h
  | case2 done => exact Descends.not_transGen h
  | case3 root roots done hdone => exact ⟨h.toExplores.skip hdone, trivial⟩
  | case4 root roots done hdone =>
    have htake : Explores g (root :: roots) done [⟨root, successors g root⟩] :=
      h.toExplores.take (fun _ ha => absurd ha (Option.not_mem_none _)) rfl
        (Bool.eq_false_iff.mpr hdone)
    exact ⟨htake.skip (isIn_of_mem_list (List.mem_cons_self ..)), fun b hb => .inl hb, trivial⟩
  | case5 roots done node rest => exact Descends.leave h
  | case6 roots done node target pending rest hpath =>
    have hedge := h.pending _ (List.mem_cons_self ..) target (List.mem_cons_self ..)
    exact h.isPath.isCycle_closeCycle hedge hpath
  | case7 roots done node target pending rest hpath hdone =>
    exact ⟨h.toExplores.drop, h.tried.pass hdone fun _ => id⟩
  | case8 roots done node target pending rest hpath hdone =>
    have hedge := h.pending _ (List.mem_cons_self ..) target (List.mem_cons_self ..)
    have hhead : ∀ a ∈ (pathNodes (⟨node, pending⟩ :: rest)).head?, Leads g a target := by
      rintro _ ⟨⟩
      exact hedge
    refine ⟨h.toExplores.drop.take hhead (Bool.eq_false_iff.mpr hpath)
      (Bool.eq_false_iff.mpr hdone), fun b hb => .inl hb, ?_⟩
    exact h.tried.pass (isIn_of_mem_list (List.mem_cons_self ..)) fun b hb => by
      rw [isIn_cons, hb, Bool.or_true]

/-- A whole run keeps the invariant. -/
theorem Invariant.iterate (h : Invariant g d) (n : Nat) : Invariant g ((Descent.step g)^[n] d) := by
  induction n with
  | zero => exact h
  | succ n ih =>
    rw [Function.iterate_succ_apply']
    exact ih.step

end Descent

/-- **A search finds a cycle if there is one,** provided that it begins with all nodes that have
successors. -/
theorem cycleFrom_spec (h : ∀ a b, Leads g a b → isIn a roots = true) :
    ((cycleFrom g [] roots).isSome ↔ ∃ a, TransGen (Leads g) a a) ∧
      ∀ cycle ∈ cycleFrom g [] roots, IsCycle (Leads g) cycle := by
  obtain ⟨n, -, hended⟩ := Descent.exists_steps g roots
  have hstart : Descent.Invariant g (.start roots) := Descends.start h
  have hinvariant := hstart.iterate n
  rw [hended] at hinvariant
  cases hfound : cycleFrom g [] roots with
  | none =>
    rw [hfound] at hinvariant
    refine ⟨⟨fun hsome => absurd hsome Bool.false_ne_true, ?_⟩, fun _ hcycle => nomatch hcycle⟩
    rintro ⟨a, hcycle⟩
    exact absurd hcycle (hinvariant a)
  | some found =>
    rw [hfound] at hinvariant
    refine ⟨⟨fun _ => hinvariant.exists_transGen, fun _ => rfl⟩, ?_⟩
    rintro cycle ⟨⟩
    exact hinvariant

end TypeScriptEngine.Graph

namespace TypeScriptEngine.DependencyGraph

open TypeScriptEngine.Graph TypeScriptEngine.Path

variable {g : DependencyGraph} {edges : EdgeMap}

/-- The files from which the search for a cycle begins: those with edges, in ascending order. -/
def roots (g : DependencyGraph) : List Path := (g.forward.map Prod.fst).mergeSort Path.le

theorem length_roots (g : DependencyGraph) : g.roots.length = g.size := by
  rw [roots, List.length_mergeSort, List.length_map, size]

theorem isIn_roots_of_leads {s t : Path} (h : Leads g.targets s t) : isIn s g.roots = true := by
  have hkeys : g.targets.map Prod.fst = g.forward.map Prod.fst := by
    rw [targets, List.map_map]
    rfl
  obtain ⟨p, hp, he⟩ := Graph.isIn_iff_exists.mp (hkeys ▸ isIn_keys_of_leads h)
  exact Graph.isIn_iff_exists.mpr ⟨p, List.mem_mergeSort.mpr hp, he⟩

/-- **The search for a cycle is right, and comes to an end.**  Whatever operations were carried out,
a cycle is found just if a path of one or more edges leads from some file back to it.  What is found
begins and ends with the same file, each of its files has an edge to the next one, and no other file
occurs twice in it.  The search is over after no more than two steps for each file with edges and
for each edge, and one more. -/
theorem cycle_search (ops : List Operation) :
    let g := run ops
    let edges := runOnMap ops
    (g.findCycle?.isSome ↔ ∃ file, PathTo edges file file) ∧
    (∀ cycle ∈ g.findCycle?, IsCycle (LinksTo edges) cycle) ∧
    ∃ n ≤ 2 * (g.size + edgeCount g.targets) + 1,
      (Descent.step g.targets)^[n] (.start g.roots) = .ended g.findCycle? := by
  intro g edges
  have h : g.Shows edges := shows_empty.foldl ops
  obtain ⟨hiff, hcycle⟩ := cycleFrom_spec fun s t => isIn_roots_of_leads (g := g)
  rw [h.leads_targets] at hiff hcycle
  refine ⟨hiff, hcycle, ?_⟩
  rw [← length_roots]
  exact Descent.exists_steps g.targets g.roots

end TypeScriptEngine.DependencyGraph
