import TypeScriptEngine.Engine.Registry
import TypeScriptEngine.Proofs.Engine.Invalidation

/-! # Instances do not interfere

A host makes calls on its registry (`Call`), each in surroundings of its own.  What a call does to
the instance of a name, and what it answers about it, depends on that instance and the compilers
only: the registry acts on one name as a machine whose state is the instance of that name, if there
is one (`Slot`).

* `answer_slot` says so of a call that concerns the name, and any other call leaves the slot as it
  is (`get?_answer_of_not_concerns`);
* `run_slot` says so of a sequence of calls;
* `settings_after` tells which settings the instance of a name has.

So the calls for other names can be left out of a run (`instances_do_not_interfere`).
-/

namespace TypeScriptEngine

/-- What a host hands over to get an instance. -/
structure InstanceRequest where
  settings : BuildSettings
  /-- The file that is built. -/
  file : Path
  context : Path

namespace InstanceRequest

/-- The name of the instance. -/
def id (q : InstanceRequest) : String := q.settings.loader.instanceId

/-- A new instance, with one of the compilers that are known by their names. -/
def create (q : InstanceRequest) (known : String → Option Compiler) (disk : Disk) :
    Except EngineError Instance :=
  match known q.settings.loader.compiler with
  | none => .error (.unknownCompiler q.settings.loader.compiler)
  | some compiler => Instance.create disk q.settings compiler q.file.normalize q.context

/-- A new instance has the settings of the request, and no files yet. -/
theorem create_eq {q : InstanceRequest} {known : String → Option Compiler} {disk : Disk}
    {i : Instance} (h : q.create known disk = .ok i) :
    i.settings = q.settings ∧ i.workspace = .empty := by
  unfold create at h
  split at h
  · contradiction
  · obtain ⟨hworkspace, _, _, hsettings⟩ := Instance.create_eq h
    exact ⟨hsettings, hworkspace⟩

end InstanceRequest

/-- The instance that a file is compiled in. -/
def CompileRequest.within (r : CompileRequest) (settings : BuildSettings) : InstanceRequest :=
  ⟨settings, r.path, r.context⟩

/-- What a host asks of a registry. -/
inductive Call where
  | ensureInstance (q : InstanceRequest)
  | compile (settings : BuildSettings) (r : CompileRequest)
  | notifyChanged (path : Path)
  /-- A scan of the declaration files of an instance. -/
  | rescan (id : String)

namespace Call

/-- The instance that the call is made on, to be made if it is not there. -/
def request? : Call → Option InstanceRequest
  | ensureInstance q => some q
  | compile settings r => some (r.within settings)
  | notifyChanged _ | rescan _ => none

/-- Whether the call is addressed to the instance of a name.  A notification is to all of them. -/
def concerns (id : String) : Call → Bool
  | ensureInstance q => q.id == id
  | compile settings r => (r.within settings).id == id
  | notifyChanged _ => true
  | rescan other => other == id

end Call

/-- What the host gets. -/
inductive Answer where
  | ensured (result : Except EngineError Instance)
  | compiled (result : Except EngineError CompileOutput)
  | notified (results : List (String × Except EngineError Invalidation))
  /-- The scan of an instance, if there is one. -/
  | rescanned (result : Option (Except EngineError (List Invalidation)))

namespace Answer

/-- The part of an answer that is about a name. -/
def seenBy (id : String) : Answer → Answer
  | notified results => notified (results.filter fun result => result.1 == id)
  | answer => answer

/-- The error that a host gets in the place of an instance or of its output. -/
def error? : Answer → Option EngineError
  | ensured (.error e) | compiled (.error e) => some e
  | _ => none

end Answer

namespace Registry

/-! ## Runs of a registry -/

/-- What a call does, and what it answers. -/
def answer (registry : Registry) (env : Surroundings) : Call → Registry × Answer
  | .ensureInstance q =>
    match registry.ensureInstance env.disk q.settings q.file q.context with
    | .ok (i, registry) => (registry, .ensured (.ok i))
    | .error e => (registry, .ensured (.error e))
  | .compile settings r =>
    let done := registry.compile env settings r
    (done.state, .compiled done.result)
  | .notifyChanged path =>
    let (registry, _, results) := registry.notifyChanged env path
    (registry, .notified results)
  | .rescan id =>
    match registry.get? id with
    | none => (registry, .rescanned none)
    | some i => (registry.put (i.rescan env).state, .rescanned (some (i.rescan env).result))

/-- The registry after some calls. -/
def after (registry : Registry) : List (Surroundings × Call) → Registry
  | [] => registry
  | (env, call) :: calls => (registry.answer env call).1.after calls

/-- The answers to the calls that concern a name, as far as they are about it. -/
def answersTo (id : String) (registry : Registry) : List (Surroundings × Call) → List Answer
  | [] => []
  | (env, call) :: calls =>
    let (registry, found) := registry.answer env call
    (if call.concerns id then [found.seenBy id] else []) ++ registry.answersTo id calls

/-- **Why a registry does not give an instance:** there is one of that name with other settings, or
there is none and it cannot be made. -/
inductive Refuses (registry : Registry) (disk : Disk) (q : InstanceRequest) :
    EngineError → Prop where
  | conflicting {i : Instance} (h : registry.get? q.id = some i)
      (hsettings : i.settings.loader ≠ q.settings.loader) :
      Refuses registry disk q (.conflictingOptions q.id)
  | failing {e : EngineError} (h : registry.get? q.id = none)
      (hcreate : q.create registry.compiler? disk = .error e) : Refuses registry disk q e

/-- The settings of the instance of a name that a call makes, if there is none yet. -/
def makes (known : String → Option Compiler) (id : String) (call : Surroundings × Call) :
    Option BuildSettings :=
  match call.2.request? with
  | none => none
  | some q =>
    if q.id = id ∧ (q.create known call.1.disk).isOk then some q.settings else none

/-! ## The slot of a name -/

/-- What there is of a name: an instance, or none. -/
abbrev Slot := Option Instance

namespace Slot

/-- The instance that a request gets. -/
def ensure (known : String → Option Compiler) (disk : Disk) (q : InstanceRequest) :
    Slot → Except EngineError Instance
  | some i =>
    if i.settings.loader = q.settings.loader then .ok i else .error (.conflictingOptions q.id)
  | none => q.create known disk

/-- What is reported under a name of an instance that was told of a change. -/
def reported (id : String) :
    Except EngineError (Option Invalidation) → List (String × Except EngineError Invalidation)
  | .ok none => []
  | .ok (some invalidation) => [(id, .ok invalidation)]
  | .error e => [(id, .error e)]

/-- What a call that concerns a name does to its slot, and what it answers about it. -/
def answer (known : String → Option Compiler) (id : String) (env : Surroundings) (slot : Slot) :
    Call → Slot × Answer
  | .ensureInstance q =>
    match slot.ensure known env.disk q with
    | .ok i => (some i, .ensured (.ok i))
    | .error e => (slot, .ensured (.error e))
  | .compile settings r =>
    match slot.ensure known env.disk (r.within settings) with
    | .ok i => (some (i.compile env r).state, .compiled (i.compile env r).result)
    | .error e => (slot, .compiled (.error e))
  | .notifyChanged path =>
    (slot.map fun i => (i.notifyChanged env path).state,
      .notified (slot.elim [] fun i => reported id (i.notifyChanged env path).result))
  | .rescan _ =>
    (slot.map fun i => (i.rescan env).state, .rescanned (slot.map fun i => (i.rescan env).result))

/-- The slot after the calls that concern its name. -/
def after (known : String → Option Compiler) (id : String) (slot : Slot) :
    List (Surroundings × Call) → Slot
  | [] => slot
  | (env, call) :: calls =>
    if call.concerns id then (after known id (slot.answer known id env call).1 calls)
    else after known id slot calls

/-- The answers to these calls. -/
def answers (known : String → Option Compiler) (id : String) (slot : Slot) :
    List (Surroundings × Call) → List Answer
  | [] => []
  | (env, call) :: calls =>
    if call.concerns id then
      (slot.answer known id env call).2 :: answers known id (slot.answer known id env call).1 calls
    else answers known id slot calls

variable (known : String → Option Compiler) (id : String)

/-- Calls that do not concern the name can be left out. -/
theorem after_filter (slot : Slot) (calls : List (Surroundings × Call)) :
    after known id slot (calls.filter fun call => call.2.concerns id) =
      after known id slot calls := by
  induction calls generalizing slot with
  | nil => rfl
  | cons call calls ih =>
    by_cases h : call.2.concerns id = true
    · simp only [List.filter_cons, after, if_pos h, ih]
    · simp only [List.filter_cons, after, if_neg h, ih]

theorem answers_filter (slot : Slot) (calls : List (Surroundings × Call)) :
    answers known id slot (calls.filter fun call => call.2.concerns id) =
      answers known id slot calls := by
  induction calls generalizing slot with
  | nil => rfl
  | cons call calls ih =>
    by_cases h : call.2.concerns id = true
    · simp only [List.filter_cons, answers, if_pos h, ih]
    · simp only [List.filter_cons, answers, if_neg h, ih]

end Slot

/-! ## Replacing an instance -/

/-- What a registry keeps: each name once, and the workspaces of the instances in order. -/
structure WellKept (registry : Registry) : Prop where
  names : (registry.instances.map Instance.id).Nodup
  workspaces : ∀ i ∈ registry.instances, i.workspace.WellKept

variable {registry : Registry} {env : Surroundings} {i : Instance} {id : String}

@[simp] theorem compilers_put (registry : Registry) (i : Instance) :
    (registry.put i).compilers = registry.compilers := rfl

theorem id_of_get? (h : registry.get? id = some i) : i.id = id := by
  have hfound := List.find?_some h
  exact eq_of_beq hfound

theorem mem_of_get? (h : registry.get? id = some i) : i ∈ registry.instances :=
  List.mem_of_find?_eq_some h

/-- The names are the same when an instance is replaced. -/
theorem map_id_put (registry : Registry) (i : Instance) :
    (registry.put i).instances.map Instance.id = registry.instances.map Instance.id := by
  unfold put
  rw [List.map_map]
  refine List.map_congr_left fun other _ => ?_
  by_cases h : other.id = i.id
  · simp [h]
  · simp [h]

/-- **An instance takes the place of the one of its name,** and of no other. -/
theorem get?_put (registry : Registry) (i : Instance) (id : String) :
    (registry.put i).get? id =
      if i.id = id then (registry.get? id).map fun _ => i else registry.get? id := by
  have hid : ∀ other : Instance, (if other.id == i.id then i else other).id = other.id := by
    intro other
    by_cases h : other.id = i.id
    · simp [h]
    · simp [h]
  unfold get? put
  rw [List.find?_map]
  simp only [Function.comp_def, hid]
  cases hfound : registry.instances.find? fun other => other.id == id with
  | none => simp
  | some other =>
    have hother : other.id = id := id_of_get? hfound
    by_cases h : i.id = id
    · simp [h, hother]
    · have hne : ¬ other.id = i.id := fun he => h (he.symm.trans hother)
      simp [h, hne]

theorem WellKept.put (hr : registry.WellKept) (hi : i.workspace.WellKept) :
    (registry.put i).WellKept where
  names := by
    rw [map_id_put]
    exact hr.names
  workspaces := by
    intro j hj
    obtain ⟨other, hother, rfl⟩ := List.mem_map.mp hj
    split
    · exact hi
    · exact hr.workspaces other hother

/-! ## Requests for an instance -/

/-- The registry with an instance, if there is none of its name. -/
def hold (registry : Registry) (i : Instance) : Registry :=
  if (registry.get? i.id).isSome then registry
  else { registry with instances := registry.instances ++ [i] }

@[simp] theorem compilers_hold (registry : Registry) (i : Instance) :
    (registry.hold i).compilers = registry.compilers := by
  unfold hold
  split <;> rfl

theorem get?_hold (registry : Registry) (i : Instance) (id : String) :
    (registry.hold i).get? id =
      if i.id = id then (registry.get? id).or (some i) else registry.get? id := by
  by_cases h : i.id = id
  · subst h
    rw [if_pos rfl]
    unfold hold
    cases hi : registry.get? i.id with
    | some j => simpa using hi
    | none =>
      have hnone : registry.instances.find? (fun j => j.id == i.id) = none := hi
      simp [get?, hnone]
  · rw [if_neg h]
    unfold hold
    split
    · rfl
    · simp [get?, h]

theorem WellKept.hold (hr : registry.WellKept) (hi : i.workspace.WellKept) :
    (registry.hold i).WellKept := by
  unfold Registry.hold
  split
  · exact hr
  · rename_i hnone
    rw [Option.not_isSome_iff_eq_none] at hnone
    have hnew : ∀ j ∈ registry.instances, j.id ≠ i.id := by
      intro j hj he
      have hfalse := List.find?_eq_none.mp hnone j hj
      simp [he] at hfalse
    constructor
    · simp only [List.map_append, List.map_cons, List.map_nil]
      refine hr.names.append (List.nodup_singleton _) ?_
      intro other hother hi
      obtain ⟨j, hj, rfl⟩ := List.mem_map.mp hother
      exact hnew j hj (List.mem_singleton.mp hi)
    · intro j hj
      rcases List.mem_append.mp hj with hj | hj
      · exact hr.workspaces j hj
      · rw [List.mem_singleton.mp hj]
        exact hi

/-- What a request can get: the instance that is there, or a new one. -/
theorem Slot.ensure_ok {known : String → Option Compiler} {disk : Disk} {q : InstanceRequest}
    {slot : Slot} (h : slot.ensure known disk q = .ok i) :
    slot = some i ∨ slot = none ∧ q.create known disk = .ok i := by
  cases slot with
  | none => exact .inr ⟨rfl, h⟩
  | some j =>
    simp only [Slot.ensure] at h
    split at h
    · exact .inl (congrArg some (Except.ok.inj h))
    · contradiction

/-- **A request gets what the slot of its name gives,** and a new instance is held. -/
theorem ensureInstance_eq (registry : Registry) (disk : Disk) (q : InstanceRequest) :
    registry.ensureInstance disk q.settings q.file q.context =
      (Slot.ensure registry.compiler? disk q (registry.get? q.id)).map
        fun i => (i, registry.hold i) := by
  have hid : registry.get? q.settings.loader.instanceId = registry.get? q.id := rfl
  simp only [ensureInstance, hid]
  cases hget : registry.get? q.id with
  | some i =>
    have hhold : registry.hold i = registry := by
      simp [Registry.hold, id_of_get? hget, hget]
    by_cases hsettings : i.settings.loader = q.settings.loader
    · simp [Slot.ensure, hsettings, hhold, Except.map]
    · simp [Slot.ensure, hsettings, Except.map, InstanceRequest.id]
  | none =>
    simp only [Slot.ensure, InstanceRequest.create]
    cases registry.compiler? q.settings.loader.compiler with
    | none => rfl
    | some compiler =>
      simp only [bind, Except.bind]
      cases hcreate : Instance.create disk q.settings compiler q.file.normalize q.context with
      | error e => rfl
      | ok i =>
        have hid : i.id = q.id := by
          rw [Instance.id, (Instance.create_eq hcreate).2.2.2, InstanceRequest.id]
        simp [Registry.hold, hid, hget, Except.map, pure, Except.pure]

/-- The instance that a slot gives has the name of the request. -/
theorem id_of_ensure {disk : Disk} {q : InstanceRequest}
    (h : Slot.ensure registry.compiler? disk q (registry.get? q.id) = .ok i) : i.id = q.id := by
  rcases Slot.ensure_ok h with hget | ⟨_, hcreate⟩
  · exact id_of_get? hget
  · rw [Instance.id, (InstanceRequest.create_eq hcreate).1, InstanceRequest.id]

theorem wellKept_of_ensure {disk : Disk} {q : InstanceRequest} (hr : registry.WellKept)
    (h : Slot.ensure registry.compiler? disk q (registry.get? q.id) = .ok i) :
    i.workspace.WellKept := by
  rcases Slot.ensure_ok h with hget | ⟨_, hcreate⟩
  · exact hr.workspaces i (mem_of_get? hget)
  · rw [(InstanceRequest.create_eq hcreate).2]
    exact Workspace.wellKept_empty

/-- The slot of the name has the instance then. -/
theorem get?_hold_of_ensure {disk : Disk} {q : InstanceRequest}
    (h : Slot.ensure registry.compiler? disk q (registry.get? q.id) = .ok i) :
    (registry.hold i).get? q.id = some i := by
  rw [get?_hold, if_pos (id_of_ensure h)]
  rcases Slot.ensure_ok h with hget | ⟨hnone, _⟩
  · rw [hget]
    rfl
  · rw [hnone]
    rfl

/-! ## Steps of an instance -/

theorem id_after (hw : i.workspace.WellKept) (env : Surroundings) (step : HostStep) :
    (i.after env step).id = i.id := by
  rw [Instance.id, (Instance.sameSession_after i env hw step).settings, Instance.id]

theorem wellKept_after (hw : i.workspace.WellKept) (env : Surroundings) (step : HostStep) :
    (i.after env step).workspace.WellKept :=
  (Instance.moves_induction (P := fun _ => True) (fun _ _ _ => trivial)
    (Instance.moves_after i env hw step) hw trivial).1

/-! ## Notifications -/

section Notifications

variable {path : Path}

theorem notifyAll_of_none {ids : List String} (h : registry.get? id = none) :
    notifyAll env path (id :: ids) registry = notifyAll env path ids registry := by
  rw [notifyAll, h]

/-- An instance is told, and then the others. -/
theorem notifyAll_of_some {ids : List String} (h : registry.get? id = some i) :
    notifyAll env path (id :: ids) registry =
      ((notifyAll env path ids (registry.put (i.notifyChanged env path).state)).1,
        (i.notifyChanged env path).accesses ++
          (notifyAll env path ids (registry.put (i.notifyChanged env path).state)).2.1,
        Slot.reported id (i.notifyChanged env path).result ++
          (notifyAll env path ids (registry.put (i.notifyChanged env path).state)).2.2) := by
  rw [notifyAll, h]
  rfl

theorem reported_filter (other : String) (result : Except EngineError (Option Invalidation)) :
    (Slot.reported other result).filter (fun found => found.1 == id) =
      if other = id then Slot.reported other result else [] := by
  unfold Slot.reported
  split <;> by_cases h : other = id <;> simp [h]

/-- **Each of the instances is told once,** and nothing is said of the others. -/
theorem notifyAll_slot (hr : registry.WellKept) {ids : List String} (hids : ids.Nodup) :
    (notifyAll env path ids registry).1.WellKept ∧
    (notifyAll env path ids registry).1.compilers = registry.compilers ∧
    (notifyAll env path ids registry).1.get? id =
      (if id ∈ ids then (registry.get? id).map fun i => (i.notifyChanged env path).state
        else registry.get? id) ∧
    (notifyAll env path ids registry).2.2.filter (fun found => found.1 == id) =
      if id ∈ ids then
        (registry.get? id).elim [] fun i => Slot.reported id (i.notifyChanged env path).result
      else [] := by
  -- on the names that are left, for what the ones before have made of the registry
  induction ids generalizing registry with
  | nil => exact ⟨hr, rfl, rfl, rfl⟩
  | cons other ids ih =>
    obtain ⟨hother, hids⟩ := List.nodup_cons.mp hids
    cases hget : registry.get? other with
    | none =>
      rw [notifyAll_of_none hget]
      obtain ⟨hkept, hcompilers, hstate, hresults⟩ := ih hr hids
      refine ⟨hkept, hcompilers, hstate.trans ?_, hresults.trans ?_⟩
      all_goals
        by_cases h : other = id
        · subst h
          simp [hget]
        · simp [Ne.symm h]
    | some i =>
      rw [notifyAll_of_some hget]
      have hw := hr.workspaces i (mem_of_get? hget)
      have htold : (i.notifyChanged env path).state.id = other :=
        (id_after hw env (.notifyChanged path)).trans (id_of_get? hget)
      have hput : (registry.put (i.notifyChanged env path).state).WellKept :=
        hr.put (wellKept_after hw env (.notifyChanged path))
      obtain ⟨hkept, hcompilers, hstate, hresults⟩ := ih hput hids
      refine ⟨hkept, hcompilers, hstate.trans ?_, ?_⟩
      · rw [get?_put, htold]
        by_cases h : other = id
        · subst h
          simp [hother, hget]
        · simp [h, Ne.symm h]
      · rw [List.filter_append, reported_filter, hresults, get?_put, htold]
        by_cases h : other = id
        · subst h
          simp [hother, hget]
        · simp [h, Ne.symm h]

/-- The names are those of the instances, each once. -/
theorem mem_ids_iff : id ∈ registry.ids ↔ (registry.get? id).isSome := by
  unfold ids get?
  rw [List.mem_mergeSort, List.mem_map, List.find?_isSome]
  exact exists_congr fun i => and_congr_right fun _ => beq_iff_eq.symm

theorem WellKept.nodup_ids (hr : registry.WellKept) : registry.ids.Nodup :=
  (List.mergeSort_perm _ _).nodup_iff.mpr hr.names

/-- **A notification reaches every instance on its own.** -/
theorem notifyChanged_slot (hr : registry.WellKept) (env : Surroundings) (path : Path)
    (id : String) :
    (registry.notifyChanged env path).1.WellKept ∧
    (registry.notifyChanged env path).1.compilers = registry.compilers ∧
    (registry.notifyChanged env path).1.get? id =
      ((registry.get? id).map fun i => (i.notifyChanged env path).state) ∧
    (registry.notifyChanged env path).2.2.filter (fun found => found.1 == id) =
      (registry.get? id).elim [] fun i =>
        Slot.reported id (i.notifyChanged env path).result := by
  have hslot := @notifyAll_slot registry env id path hr _ hr.nodup_ids
  unfold notifyChanged
  cases hget : registry.get? id with
  | none => simpa [mem_ids_iff, hget] using hslot
  | some i => simpa [mem_ids_iff, hget] using hslot

end Notifications

/-! ## Calls -/

theorem answer_ensureInstance (registry : Registry) (env : Surroundings) (q : InstanceRequest) :
    registry.answer env (.ensureInstance q) =
      match Slot.ensure registry.compiler? env.disk q (registry.get? q.id) with
      | .ok i => (registry.hold i, .ensured (.ok i))
      | .error e => (registry, .ensured (.error e)) := by
  simp only [answer, ensureInstance_eq]
  cases Slot.ensure registry.compiler? env.disk q (registry.get? q.id) <;> rfl

theorem answer_compile (registry : Registry) (env : Surroundings) (settings : BuildSettings)
    (r : CompileRequest) :
    registry.answer env (.compile settings r) =
      match Slot.ensure registry.compiler? env.disk (r.within settings)
          (registry.get? (r.within settings).id) with
      | .ok i =>
        ((registry.hold i).put (i.compile env r).state, .compiled (i.compile env r).result)
      | .error e => (registry, .compiled (.error e)) := by
  have hensure := ensureInstance_eq registry env.disk (r.within settings)
  simp only [CompileRequest.within] at hensure
  simp only [answer, compile, hensure, CompileRequest.within]
  cases Slot.ensure registry.compiler? env.disk ⟨settings, r.path, r.context⟩
    (registry.get? (InstanceRequest.id ⟨settings, r.path, r.context⟩)) <;> rfl

theorem answer_rescan (registry : Registry) (env : Surroundings) (id : String) :
    registry.answer env (.rescan id) =
      match registry.get? id with
      | none => (registry, .rescanned none)
      | some i => (registry.put (i.rescan env).state, .rescanned (some (i.rescan env).result)) :=
  rfl

/-- The registry stays in order. -/
theorem WellKept.answer (hr : registry.WellKept) (env : Surroundings) (call : Call) :
    (registry.answer env call).1.WellKept := by
  cases call with
  | ensureInstance q =>
    rw [answer_ensureInstance]
    cases hensure : Slot.ensure registry.compiler? env.disk q (registry.get? q.id) with
    | error e => exact hr
    | ok i => exact hr.hold (wellKept_of_ensure hr hensure)
  | compile settings r =>
    rw [answer_compile]
    cases hensure : Slot.ensure registry.compiler? env.disk (r.within settings)
        (registry.get? (r.within settings).id) with
    | error e => exact hr
    | ok i =>
      have hw := wellKept_of_ensure hr hensure
      exact (hr.hold hw).put (wellKept_after hw env (.compile r))
  | notifyChanged path => exact (notifyChanged_slot hr env path "").1
  | rescan id =>
    rw [answer_rescan]
    cases hget : registry.get? id with
    | none => exact hr
    | some i => exact hr.put (wellKept_after (hr.workspaces i (mem_of_get? hget)) env .rescan)

/-- The compilers stay the same. -/
theorem compilers_answer (hr : registry.WellKept) (env : Surroundings) (call : Call) :
    (registry.answer env call).1.compilers = registry.compilers := by
  cases call with
  | ensureInstance q =>
    rw [answer_ensureInstance]
    split <;> simp
  | compile settings r =>
    rw [answer_compile]
    split <;> simp
  | notifyChanged path => exact (notifyChanged_slot hr env path "").2.1
  | rescan id =>
    rw [answer_rescan]
    split <;> rfl

/-- **A call leaves the instances alone that it does not concern.** -/
theorem get?_answer_of_not_concerns (hr : registry.WellKept) (env : Surroundings) {call : Call}
    (h : call.concerns id = false) : (registry.answer env call).1.get? id = registry.get? id := by
  cases call with
  | ensureInstance q =>
    have hne : q.id ≠ id := by simpa [Call.concerns] using h
    rw [answer_ensureInstance]
    cases hensure : Slot.ensure registry.compiler? env.disk q (registry.get? q.id) with
    | error e => rfl
    | ok i => simp [get?_hold, id_of_ensure hensure, hne]
  | compile settings r =>
    have hne : (r.within settings).id ≠ id := by simpa [Call.concerns] using h
    rw [answer_compile]
    cases hensure : Slot.ensure registry.compiler? env.disk (r.within settings)
        (registry.get? (r.within settings).id) with
    | error e => rfl
    | ok i =>
      have hid : (i.compile env r).state.id = (r.within settings).id :=
        (id_after (wellKept_of_ensure hr hensure) env (.compile r)).trans (id_of_ensure hensure)
      simp [get?_put, get?_hold, hid, id_of_ensure hensure, hne]
  | notifyChanged path => simp [Call.concerns] at h
  | rescan other =>
    have hne : other ≠ id := by simpa [Call.concerns] using h
    rw [answer_rescan]
    cases hget : registry.get? other with
    | none => rfl
    | some i =>
      have hid : (i.rescan env).state.id = other :=
        (id_after (hr.workspaces i (mem_of_get? hget)) env .rescan).trans (id_of_get? hget)
      simp [get?_put, hid, hne]

/-- **A call acts on the slot of a name that it concerns,** and answers from it. -/
theorem answer_slot (hr : registry.WellKept) (env : Surroundings) {call : Call}
    (h : call.concerns id = true) :
    (registry.answer env call).1.get? id =
      (Slot.answer registry.compiler? id env (registry.get? id) call).1 ∧
    (registry.answer env call).2.seenBy id =
      (Slot.answer registry.compiler? id env (registry.get? id) call).2 := by
  cases call with
  | ensureInstance q =>
    obtain rfl : q.id = id := by simpa [Call.concerns] using h
    rw [answer_ensureInstance, Slot.answer]
    cases hensure : Slot.ensure registry.compiler? env.disk q (registry.get? q.id) with
    | error e => exact ⟨rfl, rfl⟩
    | ok i => exact ⟨get?_hold_of_ensure hensure, rfl⟩
  | compile settings r =>
    obtain rfl : (r.within settings).id = id := by simpa [Call.concerns] using h
    rw [answer_compile, Slot.answer]
    cases hensure : Slot.ensure registry.compiler? env.disk (r.within settings)
        (registry.get? (r.within settings).id) with
    | error e => exact ⟨rfl, rfl⟩
    | ok i =>
      have hid : (i.compile env r).state.id = (r.within settings).id :=
        (id_after (wellKept_of_ensure hr hensure) env (.compile r)).trans (id_of_ensure hensure)
      exact ⟨by simp [get?_put, hid, get?_hold_of_ensure hensure], rfl⟩
  | notifyChanged path =>
    obtain ⟨_, _, hstate, hresults⟩ := notifyChanged_slot hr env path id
    exact ⟨hstate, congrArg Answer.notified hresults⟩
  | rescan other =>
    obtain rfl : other = id := by simpa [Call.concerns] using h
    rw [answer_rescan, Slot.answer]
    cases hget : registry.get? other with
    | none => exact ⟨hget, rfl⟩
    | some i =>
      have hid : (i.rescan env).state.id = other :=
        (id_after (hr.workspaces i (mem_of_get? hget)) env .rescan).trans (id_of_get? hget)
      exact ⟨by simp [get?_put, hid, hget], rfl⟩

/-! ## Runs -/

/-- **A run acts on each slot on its own,** with the calls that concern its name. -/
theorem run_slot (hr : registry.WellKept) (id : String) (calls : List (Surroundings × Call)) :
    (registry.after calls).get? id =
      Slot.after registry.compiler? id (registry.get? id) calls ∧
    registry.answersTo id calls = Slot.answers registry.compiler? id (registry.get? id) calls := by
  induction calls generalizing registry with
  | nil => exact ⟨rfl, rfl⟩
  | cons first calls ih =>
    obtain ⟨env, call⟩ := first
    have hcompilers : (registry.answer env call).1.compiler? = registry.compiler? := by
      unfold compiler?
      rw [compilers_answer hr]
    obtain ⟨hstate, hanswers⟩ := ih (hr.answer env call)
    rw [hcompilers] at hstate hanswers
    rw [after, answersTo, Slot.after, Slot.answers]
    cases h : call.concerns id with
    | false =>
      rw [get?_answer_of_not_concerns hr env h] at hstate hanswers
      simpa using ⟨hstate, hanswers⟩
    | true =>
      obtain ⟨hslot, hseen⟩ := answer_slot hr env h
      rw [hslot] at hstate hanswers
      simpa [hseen] using ⟨hstate, hanswers⟩

theorem wellKept_of_no_instances (compilers : List Compiler) :
    (⟨compilers, []⟩ : Registry).WellKept :=
  ⟨List.nodup_nil, fun _ hi => absurd hi List.not_mem_nil⟩

/-! ## Settings -/

theorem makes_of_request {known : String → Option Compiler} {call : Call} {q : InstanceRequest}
    (hq : call.request? = some q) :
    makes known id (env, call) =
      if q.id = id ∧ (q.create known env.disk).isOk then some q.settings else none := by
  rw [makes, hq]

/-- A request leaves an instance its settings, and gives an empty slot those that it is made
with. -/
theorem Slot.settings_ensure {known : String → Option Compiler} {q : InstanceRequest}
    {slot : Slot} {disk : Disk} (h : slot.ensure known disk q = .ok i) :
    some i.settings =
      (slot.map Instance.settings).or
        (if (q.create known disk).isOk then some q.settings else none) := by
  rcases Slot.ensure_ok h with rfl | ⟨rfl, hcreate⟩
  · rfl
  · rw [hcreate, (InstanceRequest.create_eq hcreate).1]
    rfl

/-- If it is refused the slot stays empty that was empty. -/
theorem Slot.settings_refused {known : String → Option Compiler} {q : InstanceRequest}
    {slot : Slot} {disk : Disk} {e : EngineError} (h : slot.ensure known disk q = .error e) :
    slot.map Instance.settings =
      (slot.map Instance.settings).or
        (if (q.create known disk).isOk then some q.settings else none) := by
  cases slot with
  | some i => rfl
  | none =>
    have hcreate : q.create known disk = .error e := h
    rw [hcreate]
    rfl

theorem settings_after_step (hw : i.workspace.WellKept) (env : Surroundings) (step : HostStep) :
    (i.after env step).settings = i.settings :=
  (Instance.sameSession_after i env hw step).settings

/-- **An instance keeps its settings, and a new one has those of the call that makes it.** -/
theorem settings_answer (hr : registry.WellKept) (env : Surroundings) (call : Call) (id : String) :
    ((registry.answer env call).1.get? id).map Instance.settings =
      ((registry.get? id).map Instance.settings).or
        (makes registry.compiler? id (env, call)) := by
  cases hconcerns : call.concerns id with
  | false =>
    rw [get?_answer_of_not_concerns hr env hconcerns]
    cases call with
    | ensureInstance q =>
      have hne : q.id ≠ id := by simpa [Call.concerns] using hconcerns
      rw [makes_of_request rfl, if_neg fun h => hne h.1, Option.or_none]
    | compile settings r =>
      have hne : (r.within settings).id ≠ id := by simpa [Call.concerns] using hconcerns
      rw [makes_of_request rfl, if_neg fun h => hne h.1, Option.or_none]
    | notifyChanged path => exact Option.or_none.symm
    | rescan other => exact Option.or_none.symm
  | true =>
    rw [(answer_slot hr env hconcerns).1]
    have hkept : ∀ {i}, registry.get? id = some i → ∀ step,
        (i.after env step).settings = i.settings := fun h =>
      settings_after_step (hr.workspaces _ (mem_of_get? h)) env
    cases call with
    | ensureInstance q =>
      obtain rfl : q.id = id := by simpa [Call.concerns] using hconcerns
      rw [makes_of_request rfl, Slot.answer]
      simp only [true_and]
      cases hensure : Slot.ensure registry.compiler? env.disk q (registry.get? q.id) with
      | ok i => exact Slot.settings_ensure hensure
      | error e => exact Slot.settings_refused hensure
    | compile settings r =>
      obtain rfl : (r.within settings).id = id := by simpa [Call.concerns] using hconcerns
      rw [makes_of_request rfl, Slot.answer]
      simp only [true_and]
      cases hensure : Slot.ensure registry.compiler? env.disk (r.within settings)
          (registry.get? (r.within settings).id) with
      | error e => exact Slot.settings_refused hensure
      | ok i =>
        rw [← Slot.settings_ensure hensure]
        exact congrArg some
          (settings_after_step (wellKept_of_ensure hr hensure) env (.compile r))
    | notifyChanged path =>
      rw [Slot.answer, makes, Call.request?, Option.or_none]
      cases hget : registry.get? id with
      | none => rfl
      | some i => exact congrArg some (hkept hget (.notifyChanged path))
    | rescan other =>
      rw [Slot.answer, makes, Call.request?, Option.or_none]
      cases hget : registry.get? id with
      | none => rfl
      | some i => exact congrArg some (hkept hget .rescan)

/-- A name has the settings of the first call that makes an instance of it. -/
theorem settings_after (hr : registry.WellKept) (id : String)
    (calls : List (Surroundings × Call)) :
    ((registry.after calls).get? id).map Instance.settings =
      ((registry.get? id).map Instance.settings).or
        (calls.findSome? (makes registry.compiler? id)) := by
  induction calls generalizing registry with
  | nil => exact Option.or_none.symm
  | cons first calls ih =>
    obtain ⟨env, call⟩ := first
    have hcompilers : (registry.answer env call).1.compiler? = registry.compiler? := by
      unfold compiler?
      rw [compilers_answer hr]
    rw [after, ih (hr.answer env call), settings_answer hr, hcompilers, Option.or_assoc,
      List.findSome?_cons]
    cases makes registry.compiler? id (env, call) <;> rfl

/-- A refused request changes nothing, and its caller gets the reason. -/
theorem answer_of_refuses {call : Call} {q : InstanceRequest} {e : EngineError}
    (hq : call.request? = some q) (h : registry.Refuses env.disk q e) :
    (registry.answer env call).1 = registry ∧ (registry.answer env call).2.error? = some e := by
  have hensure : Slot.ensure registry.compiler? env.disk q (registry.get? q.id) = .error e := by
    cases h with
    | conflicting hget hsettings => simp [hget, Slot.ensure, hsettings]
    | failing hget hcreate => rw [hget, Slot.ensure, hcreate]
  cases call with
  | ensureInstance _ =>
    obtain rfl := Option.some.inj hq
    rw [answer_ensureInstance, hensure]
    exact ⟨rfl, rfl⟩
  | compile settings r =>
    obtain rfl := Option.some.inj hq
    rw [answer_compile, hensure]
    exact ⟨rfl, rfl⟩
  | notifyChanged _ => contradiction
  | rescan _ => contradiction

/-- **Instances do not interfere.**  Whatever calls a host makes, in whatever order, the instance of
a name and all that is answered about it are those of the run with only the calls for that name and
the notifications.  Its settings are those of the first call that could make it, and a call that is
refused leaves the registry as it is. -/
theorem instances_do_not_interfere (compilers : List Compiler) (calls : List (Surroundings × Call))
    (id : String) :
    let start : Registry := ⟨compilers, []⟩
    let own := calls.filter fun call => call.2.concerns id
    (start.after calls).get? id = (start.after own).get? id ∧
    start.answersTo id calls = start.answersTo id own ∧
    ((start.after calls).get? id).map Instance.settings =
      calls.findSome? (makes start.compiler? id) ∧
    ∀ (env : Surroundings) (call : Call) (q : InstanceRequest) (e : EngineError),
      call.request? = some q → (start.after calls).Refuses env.disk q e →
        ((start.after calls).answer env call).1 = start.after calls ∧
        ((start.after calls).answer env call).2.error? = some e := by
  intro start own
  have hstart : start.WellKept := wellKept_of_no_instances compilers
  have hall := run_slot hstart id calls
  have hown := run_slot hstart id own
  rw [Slot.after_filter, Slot.answers_filter] at hown
  refine ⟨hall.1.trans hown.1.symm, hall.2.trans hown.2.symm, ?_, ?_⟩
  · exact settings_after hstart id calls
  · intro env call q e hq h
    exact answer_of_refuses hq h

/-- A request for an instance for the small project. -/
def plainRequest : InstanceRequest := ⟨⟨{}, none⟩, ⟨"/p/a.ts"⟩, ⟨"/p"⟩⟩

/-- A request for the same name, without colors. -/
def colorlessRequest : InstanceRequest :=
  ⟨⟨{ colors := false }, none⟩, ⟨"/p/a.ts"⟩, ⟨"/p"⟩⟩

/-- The second request is refused: the name keeps the settings of the first one. -/
theorem instances_do_not_interfere_colorless :
    let registry := (⟨[builtinCompiler], []⟩ : Registry).after
      [(Instance.smallProject, .ensureInstance plainRequest)]
    (registry.get? "default").map Instance.settings = some plainRequest.settings ∧
    registry.Refuses Instance.smallProject.disk colorlessRequest (.conflictingOptions "default") ∧
    (registry.answer Instance.smallProject (.ensureInstance colorlessRequest)).1 = registry := by
  intro registry
  have hok : (plainRequest.create (compiler? ⟨[builtinCompiler], []⟩)
      Instance.smallProject.disk).isOk = true := by decide +kernel
  obtain ⟨_, _, hsettings, hrefused⟩ := instances_do_not_interfere [builtinCompiler]
    [(Instance.smallProject, .ensureInstance plainRequest)] "default"
  rw [List.findSome?_cons, makes_of_request rfl, if_pos ⟨rfl, hok⟩] at hsettings
  obtain ⟨i, hget, hi⟩ := Option.map_eq_some_iff.mp hsettings
  have hrefuses : registry.Refuses Instance.smallProject.disk colorlessRequest
      (.conflictingOptions "default") :=
    .conflicting hget (by rw [hi]; decide)
  exact ⟨hsettings, hrefuses, (hrefused _ _ _ _ rfl hrefuses).1⟩

end Registry
end TypeScriptEngine
