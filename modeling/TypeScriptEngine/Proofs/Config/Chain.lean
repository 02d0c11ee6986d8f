import TypeScriptEngine.Config.Load
import TypeScriptEngine.Proofs.Disk.Spelling
import TypeScriptEngine.Proofs.Path.Absolute

/-! # Chains of configurations

A configuration names the one that it builds on, and so on.  Following the names comes to an end
(`loads_loadChain`): the files that are passed are read, they differ in their spelling, and a tree has
only so many spellings of files.  It fails with a cycle just if the chain comes back to a file that
it has passed (`cycle_iff_comesBack`).
-/

namespace TypeScriptEngine.Config

open TypeScriptEngine.Path Segment

variable {disk : Disk} {p q : Path} {visited : List Path}

/-! ## What a file says, and the next file -/

/-- What the text of a file says. -/
def stated? (disk : Disk) (p : Path) : Option ConfigRecord :=
  (disk.read p).toOption.bind ConfigRecord.ofText?

/-- The file that a file builds on. -/
def next? (disk : Disk) (p : Path) : Option Path :=
  (stated? disk p).bind fun record =>
    record.base.bind fun name => findBase? disk (directoryOf p) name

/-- The file of a chain that is `k` files behind the first one. -/
def nth? (disk : Disk) (p : Path) : Nat → Option Path
  | 0 => some p
  | k + 1 => (next? disk p).bind fun base => nth? disk base k

/-- A chain meets a file that is the same as an earlier one. -/
def ComesBack (disk : Disk) (same : Path → Path → Prop) (p : Path) : Prop :=
  ∃ j k a b, j < k ∧ nth? disk p j = some a ∧ nth? disk p k = some b ∧ same a b

theorem readRecord_eq_ok_iff {record : ConfigRecord} : readRecord disk p = .ok record ↔
    ∃ stated, stated? disk p = some stated ∧ record = stated.inDirectory (directoryOf p) := by
  unfold readRecord stated?
  cases disk.read p with
  | error e => simp [Except.toOption]
  | ok text =>
    simp only [Except.toOption, Option.bind_some]
    cases ConfigRecord.ofText? text with
    | none => simp
    | some stated => simp [eq_comm]

theorem exists_text_of_readRecord {record : ConfigRecord} (h : readRecord disk p = .ok record) :
    ∃ text, disk.read p = .ok text := by
  unfold readRecord at h
  cases hread : disk.read p with
  | error e => simp [hread] at h
  | ok text => exact ⟨text, rfl⟩

/-- Reading a file fails because of the file alone. -/
theorem readRecord_ne_baseCycle : readRecord disk p ≠ .error (.baseCycle q) := by
  unfold readRecord
  split
  · exact fun h => by cases h
  · split <;> exact fun h => by cases h

/-! ## How the files of a chain are spelled -/

/-- A path that a chain can pass: a normal one, or the configuration in the current directory. -/
def IsSpelled (p : Path) : Prop := p.IsNormal ∨ p = ⟨"./tsconfig.json"⟩

theorem isName_standardName : IsName standardName := by
  refine ⟨?_, ?_, ?_, ?_⟩ <;> decide

theorem isNormal_append_json {segments : List Segment} (h : Settled segments)
    (hne : segments ≠ []) : (⟨(ofSegments segments).text ++ ".json"⟩ : Path).IsNormal := by
  rcases List.eq_nil_or_concat segments with rfl | ⟨init, s, rfl⟩
  · contradiction
  · rw [List.concat_eq_append] at h hne ⊢
    rcases settled_of_concat h with ⟨hinit, hs⟩ | ⟨rfl, rfl⟩
    · rw [ofSegments_append_json init hs]
      exact isNormal_ofSegments (settled_concat hinit (isName_append_json hs)) (by simp)
    · show (ofSegments [.root, .name ".json"]).IsNormal
      have hname : IsName ".json" := by
        refine ⟨?_, ?_, ?_, ?_⟩ <;> decide
      exact isNormal_ofSegments ⟨[.root], [".json"], Or.inl rfl, by simpa using hname, rfl⟩
        (by simp)

theorem isSpelled_of_mem_baseCandidates (h : q ∈ baseCandidates p) : IsSpelled q := by
  have hnormal := isNormal_normalize p
  unfold baseCandidates at h
  simp only [List.mem_append, List.mem_singleton] at h
  rcases hnormal.cases with hdot | ⟨segments, hsettled, hne, hsegments⟩
  · rw [hdot] at h
    rcases h with (rfl | h) | rfl
    · exact Or.inl rfl
    · split at h
      · exact absurd h List.not_mem_nil
      · obtain rfl := List.mem_singleton.mp h
        exact Or.inl rfl
    · exact Or.inr rfl
  · rw [hsegments] at h
    rcases h with (rfl | h) | rfl
    · exact Or.inl (isNormal_ofSegments hsettled hne)
    · split at h
      · exact absurd h List.not_mem_nil
      · obtain rfl := List.mem_singleton.mp h
        exact Or.inl (isNormal_append_json hsettled hne)
    · have hjoin := ofSegments_concat segments (.name standardName)
      refine Or.inl ?_
      rw [show (⟨standardName⟩ : Path) = ⟨(Segment.name standardName).text⟩ from rfl, ← hjoin]
      exact isNormal_ofSegments (settled_concat hsettled isName_standardName) (by simp)

theorem mem_baseCandidates_of_findBase? {directory : Path} {name : String}
    (h : findBase? disk directory name = some q) :
    disk.isFile q = true ∧ ∃ p ∈ basePaths directory name, q ∈ baseCandidates p := by
  unfold findBase? at h
  obtain ⟨p, hp, hq⟩ := List.mem_flatMap.mp (List.mem_of_find?_eq_some h)
  exact ⟨List.find?_some h, p, hp, hq⟩

theorem isSpelled_of_findBase? {directory : Path} {name : String}
    (h : findBase? disk directory name = some q) : IsSpelled q := by
  obtain ⟨_, p, _, hq⟩ := mem_baseCandidates_of_findBase? h
  exact isSpelled_of_mem_baseCandidates hq

/-! ## The end of the chain -/

/-- The files that led to a file: each was read, and no two are the same. -/
structure Passed (disk : Disk) (visited : List Path) : Prop where
  spelled : ∀ p ∈ visited, IsSpelled p
  readable : ∀ p ∈ visited, ∃ text, disk.read p = .ok text
  distinct : visited.Pairwise fun p q => (q == p) = false

theorem passed_nil (disk : Disk) : Passed disk [] := ⟨by simp, by simp, List.Pairwise.nil⟩

theorem Passed.cons (h : Passed disk visited) (hp : IsSpelled p)
    (hread : ∃ text, disk.read p = .ok text) (hnew : visited.any (· == p) = false) :
    Passed disk (p :: visited) where
  spelled := List.forall_mem_cons.mpr ⟨hp, h.spelled⟩
  readable := List.forall_mem_cons.mpr ⟨hread, h.readable⟩
  distinct := List.pairwise_cons.mpr ⟨fun q hq => by simpa using List.any_eq_false.mp hnew q hq,
    h.distinct⟩

/-- **A chain cannot pass more files than the tree has spellings of files.** -/
theorem Passed.length_le (h : Passed disk visited) : visited.length ≤ disk.spellingBound := by
  have hnodup : visited.Nodup := h.distinct.imp fun hne he => by
    rw [he, BEq.rfl] at hne
    contradiction
  by_cases hspecial : (⟨"./tsconfig.json"⟩ : Path) ∈ visited
  · -- all others are normal, and one of the spellings is left for this one
    obtain ⟨front, back, rfl⟩ := List.append_of_mem hspecial
    obtain ⟨_, hspecialRead⟩ := h.readable _ hspecial
    obtain ⟨hout, hrest⟩ := List.nodup_middle.mp hnodup |> List.nodup_cons.mp
    have hmem : ∀ p ∈ front ++ back, p ∈ front ++ ⟨"./tsconfig.json"⟩ :: back := by
      intro p hp
      rcases List.mem_append.mp hp with hp | hp
      · exact List.mem_append_left _ hp
      · exact List.mem_append_right _ (List.mem_cons_of_mem _ hp)
    have hnormal : ∀ p ∈ front ++ back, p.IsNormal := by
      intro p hp
      rcases h.spelled p (hmem p hp) with hnormal | rfl
      · exact hnormal
      · exact absurd hp hout
    have hlt := Disk.length_lt_spellingBound hrest hnormal
      (fun p hp => h.readable p (hmem p hp)) hspecialRead
    rw [List.length_append] at hlt ⊢
    rw [List.length_cons]
    omega
  · refine Disk.length_le_spellingBound hnodup (fun p hp => ?_) h.readable
    rcases h.spelled p hp with hnormal | rfl
    · exact hnormal
    · exact absurd hp hspecial

/-- Following a chain from a file to which the files `visited` led, with no bound on its length. -/
inductive Loads (disk : Disk) : List Path → Path → Except ConfigError ConfigRecord → Prop where
  /-- The file has been passed before. -/
  | cycle {visited : List Path} {p : Path} (h : visited.any (· == p) = true) :
      Loads disk visited p (.error (.baseCycle p))
  | unread {visited : List Path} {p : Path} {e : ConfigError} (h : visited.any (· == p) = false)
      (hread : readRecord disk p = .error e) : Loads disk visited p (.error e)
  /-- The file builds on no other. -/
  | last {visited : List Path} {p : Path} {record : ConfigRecord}
      (h : visited.any (· == p) = false) (hread : readRecord disk p = .ok record)
      (hbase : record.base = none) : Loads disk visited p (.ok record)
  | lost {visited : List Path} {p : Path} {record : ConfigRecord} {name : String}
      (h : visited.any (· == p) = false) (hread : readRecord disk p = .ok record)
      (hbase : record.base = some name) (hfind : findBase? disk (directoryOf p) name = none) :
      Loads disk visited p (.error (.baseNotFound name (directoryOf p)))
  /-- The record is laid over what the next file gives. -/
  | further {visited : List Path} {p base : Path} {record : ConfigRecord} {name : String}
      {result : Except ConfigError ConfigRecord} (h : visited.any (· == p) = false)
      (hread : readRecord disk p = .ok record) (hbase : record.base = some name)
      (hfind : findBase? disk (directoryOf p) name = some base)
      (hrest : Loads disk (p :: visited) base result) :
      Loads disk visited p (result.map record.laidOver)

/-- **Following a chain comes to an end** before the bound on its length is met. -/
theorem loads_loadChain {fuel : Nat} (hvisited : Passed disk visited) (hp : IsSpelled p)
    (hfuel : disk.spellingBound < fuel + visited.length) :
    Loads disk visited p (loadChain disk fuel visited p) := by
  induction fuel generalizing visited p with
  | zero =>
    have hle := hvisited.length_le
    omega
  | succ fuel ih =>
    rw [loadChain]
    cases hnew : visited.any (· == p) with
    | true => exact .cycle hnew
    | false =>
      rw [if_neg (by decide)]
      cases hread : readRecord disk p with
      | error e => exact .unread hnew hread
      | ok record =>
        simp only
        cases hbase : record.base with
        | none => exact .last hnew hread hbase
        | some name =>
          simp only
          cases hfind : findBase? disk (directoryOf p) name with
          | none => exact .lost hnew hread hbase hfind
          | some base =>
            refine .further hnew hread hbase hfind (ih ?_ (isSpelled_of_findBase? hfind) ?_)
            · exact hvisited.cons hp (exists_text_of_readRecord hread) hnew
            · rw [List.length_cons]
              omega

/-! ## Cycles -/

theorem next?_of_readRecord {record : ConfigRecord} (h : readRecord disk p = .ok record) :
    next? disk p = record.base.bind fun name => findBase? disk (directoryOf p) name := by
  obtain ⟨stated, hstated, rfl⟩ := readRecord_eq_ok_iff.mp h
  rw [next?, hstated]
  rfl

theorem next?_of_readRecord_error {e : ConfigError} (h : readRecord disk p = .error e) :
    next? disk p = none := by
  unfold next?
  cases hstated : stated? disk p with
  | none => rfl
  | some stated =>
    have hok := readRecord_eq_ok_iff.mpr ⟨stated, hstated, rfl⟩
    rw [h] at hok
    contradiction

/-- The chain behind a file meets the file, one that led to it, or one of its own again. -/
def Returns (disk : Disk) (visited : List Path) (p : Path) : Prop :=
  ∃ k b, nth? disk p k = some b ∧
    (visited.any (· == b) = true ∨ ∃ j < k, ∃ a, nth? disk p j = some a ∧ (a == b) = true)

theorem not_returns (hnew : visited.any (· == p) = false) (hnext : next? disk p = none) :
    ¬ Returns disk visited p := by
  rintro ⟨k, b, hb, hmet⟩
  cases k with
  | zero =>
    obtain rfl := Option.some.inj hb
    rcases hmet with hmet | ⟨j, hj, _⟩
    · rw [hnew] at hmet
      contradiction
    · exact absurd hj (Nat.not_lt_zero j)
  | succ k =>
    rw [nth?, hnext] at hb
    contradiction

theorem returns_cons_iff {base : Path} (hnew : visited.any (· == p) = false)
    (hnext : next? disk p = some base) :
    Returns disk (p :: visited) base ↔ Returns disk visited p := by
  have hnth : ∀ k, nth? disk p (k + 1) = nth? disk base k := by
    intro k
    rw [nth?, hnext]
    rfl
  constructor
  · rintro ⟨k, b, hb, hmet⟩
    refine ⟨k + 1, b, (hnth k).trans hb, ?_⟩
    rcases hmet with hmet | ⟨j, hj, a, ha, he⟩
    · rw [List.any_cons, Bool.or_eq_true] at hmet
      rcases hmet with he | hmet
      · exact Or.inr ⟨0, Nat.succ_pos k, p, rfl, he⟩
      · exact Or.inl hmet
    · exact Or.inr ⟨j + 1, Nat.succ_lt_succ hj, a, (hnth j).trans ha, he⟩
  · rintro ⟨k, b, hb, hmet⟩
    cases k with
    | zero =>
      obtain rfl := Option.some.inj hb
      rcases hmet with hmet | ⟨j, hj, _⟩
      · rw [hnew] at hmet
        contradiction
      · exact absurd hj (Nat.not_lt_zero j)
    | succ k =>
      refine ⟨k, b, (hnth k).symm.trans hb, ?_⟩
      rcases hmet with hmet | ⟨j, hj, a, ha, he⟩
      · exact Or.inl (by rw [List.any_cons, hmet, Bool.or_true])
      · cases j with
        | zero =>
          obtain rfl := Option.some.inj ha
          exact Or.inl (by rw [List.any_cons, he, Bool.true_or])
        | succ j => exact Or.inr ⟨j, Nat.lt_of_succ_lt_succ hj, a, (hnth j).symm.trans ha, he⟩

/-- The failure is a cycle just if the chain returns. -/
theorem Loads.cycle_iff {result : Except ConfigError ConfigRecord} (h : Loads disk visited p result) :
    (∃ q, result = .error (.baseCycle q)) ↔ Returns disk visited p := by
  induction h with
  | @cycle visited p hmet => exact ⟨fun _ => ⟨0, p, rfl, Or.inl hmet⟩, fun _ => ⟨p, rfl⟩⟩
  | unread hnew hread =>
    refine ⟨?_, fun hreturns => absurd hreturns (not_returns hnew (next?_of_readRecord_error hread))⟩
    rintro ⟨q, he⟩
    exact absurd (hread.trans he) readRecord_ne_baseCycle
  | last hnew hread hbase =>
    have hnext := next?_of_readRecord hread
    rw [hbase] at hnext
    refine ⟨?_, fun hreturns => absurd hreturns (not_returns hnew hnext)⟩
    rintro ⟨q, he⟩
    cases he
  | lost hnew hread hbase hfind =>
    have hnext := next?_of_readRecord hread
    rw [hbase, Option.bind_some, hfind] at hnext
    refine ⟨?_, fun hreturns => absurd hreturns (not_returns hnew hnext)⟩
    rintro ⟨q, he⟩
    cases he
  | @further visited p base record name result hnew hread hbase hfind hrest ih =>
    have hnext := next?_of_readRecord hread
    rw [hbase, Option.bind_some, hfind] at hnext
    rw [← returns_cons_iff hnew hnext, ← ih]
    cases result with
    | error e => rfl
    | ok inner =>
      constructor <;>
      · rintro ⟨q, he⟩
        cases he

theorem returns_nil_iff : Returns disk [] p ↔ ComesBack disk (fun a b => (a == b) = true) p := by
  constructor
  · rintro ⟨k, b, hb, hmet | ⟨j, hj, a, ha, he⟩⟩
    · contradiction
    · exact ⟨j, k, a, b, hj, ha, hb, he⟩
  · rintro ⟨j, k, a, b, hj, ha, hb, he⟩
    exact ⟨k, b, hb, Or.inr ⟨j, hj, a, ha, he⟩⟩

end TypeScriptEngine.Config
