import TypeScriptEngine.Engine.Instance
import TypeScriptEngine.Proofs.Config.Chain
import TypeScriptEngine.Proofs.Path.Canonical

/-! # Options and the files of a chain

The options of an instance are put together from layers: what the host sets by shorthands, what it
sets otherwise, and what the configuration and the files behind it say, in the order of the chain.
Each option is that of the first layer that sets it (`SetBy`).  If the configuration is found by an
absolute path, each output directory is taken from the directory of its file, and two files of the
chain are the same just if their paths are.  By a relative path neither holds: the output directory
is taken from the directory of the configuration once more.
-/

namespace TypeScriptEngine

namespace Config

open TypeScriptEngine.Path Segment

variable {disk : Disk} {p q : Path}

/-! ## Chains that begin with an absolute path -/

/-- A path spelled by at least one name. -/
def IsNamed (p : Path) : Prop :=
  ∃ names name, (∀ n ∈ names, IsName n) ∧ IsName name ∧ p = ofNames (names ++ [name])

/-- An absolute path to what can be read passes a name: the root is a directory. -/
theorem isNamed_of_read {names : List String} (h : ∀ name ∈ names, IsName name) {text : String}
    (hread : disk.read (ofNames names) = .ok text) : IsNamed (ofNames names) := by
  rcases List.eq_nil_or_concat names with rfl | ⟨init, last, rfl⟩
  · obtain ⟨place, time, hwalk, hentry, _⟩ := Disk.exists_walk_of_read hread
    rw [segments_ofNames h] at hwalk
    obtain ⟨next, hstep, hrest⟩ := Disk.walk_cons hwalk
    obtain rfl := Except.ok.inj hstep
    obtain rfl := Except.ok.inj hrest
    rw [show disk.entry? [] = some (.directory 0) from if_pos rfl] at hentry
    cases hentry
  · rw [List.concat_eq_append] at h ⊢
    exact ⟨init, last, fun n hn => h n (List.mem_append_left _ hn),
      h last (List.mem_append_right _ (List.mem_singleton_self _)), rfl⟩

theorem IsNamed.directoryOf (h : IsNamed p) :
    ∃ names, (∀ n ∈ names, IsName n) ∧ directoryOf p = ofNames names := by
  obtain ⟨names, name, hnames, hname, rfl⟩ := h
  refine ⟨names, hnames, ?_⟩
  rw [Config.directoryOf, parent?_ofNames hnames hname]
  rfl

/-- What a file in an absolute directory builds on is found by an absolute path. -/
theorem isAbsolute_of_mem_basePaths {names : List String} (h : ∀ n ∈ names, IsName n)
    {name : String} (hq : q ∈ basePaths (ofNames names) name) : q.isAbsolute = true := by
  unfold basePaths at hq
  split at hq
  · rw [List.mem_singleton.mp hq]
    exact isAbsolute_join (isAbsolute_ofNames h) _
  · obtain ⟨dir, hdir, rfl⟩ := List.mem_map.mp hq
    exact isAbsolute_join (isAbsolute_join (isAbsolute_of_mem_ancestorsUpTo (isAbsolute_ofNames h) hdir) _) _

theorem exists_ofNames_of_mem_baseCandidates (hp : p.isAbsolute = true)
    (hq : q ∈ baseCandidates p) : ∃ names, (∀ n ∈ names, IsName n) ∧ q = ofNames names := by
  obtain ⟨names, hnames, hnormal⟩ := exists_ofNames hp
  have hconcat : ∀ {init : List String} {name : String}, (∀ n ∈ init, IsName n) → IsName name →
      ∀ n ∈ init ++ [name], IsName n := by
    intro init name hinit hname n hn
    rcases List.mem_append.mp hn with hn | hn
    · exact hinit n hn
    · exact List.mem_singleton.mp hn ▸ hname
  unfold baseCandidates at hq
  simp only [hnormal, List.mem_append, List.mem_singleton] at hq
  rcases hq with (rfl | hq) | rfl
  · exact ⟨names, hnames, rfl⟩
  · split at hq
    · exact absurd hq List.not_mem_nil
    · obtain rfl := List.mem_singleton.mp hq
      rcases List.eq_nil_or_concat names with rfl | ⟨init, last, rfl⟩
      · have hname : IsName ".json" := by
          refine ⟨?_, ?_, ?_, ?_⟩ <;> decide
        exact ⟨[".json"], by simpa using hname, rfl⟩
      · rw [List.concat_eq_append] at hnames ⊢
        have hinit : ∀ n ∈ init, IsName n := fun n hn => hnames n (List.mem_append_left _ hn)
        have hlast : (Segment.name last).Plain :=
          hnames last (List.mem_append_right _ (List.mem_singleton_self _))
        have hjson : IsName ((Segment.name last).text ++ ".json") := isName_append_json hlast
        refine ⟨init ++ [last ++ ".json"], hconcat hinit hjson, ?_⟩
        have happend := ofSegments_append_json (.root :: init.map .name) hlast
        rw [ofNames, ofNames, List.map_append, List.map_append]
        exact happend
  · exact ⟨names ++ [standardName], hconcat hnames isName_standardName, ofNames_join _ _⟩

theorem exists_ofNames_of_findBase? {names : List String} (h : ∀ n ∈ names, IsName n)
    {name : String} (hfind : findBase? disk (ofNames names) name = some q) :
    ∃ names, (∀ n ∈ names, IsName n) ∧ q = ofNames names := by
  obtain ⟨_, base, hbase, hq⟩ := mem_baseCandidates_of_findBase? hfind
  exact exists_ofNames_of_mem_baseCandidates (isAbsolute_of_mem_basePaths h hbase) hq

theorem isNamed_of_stated {record : ConfigRecord}
    (hp : ∃ names, (∀ n ∈ names, IsName n) ∧ p = ofNames names)
    (h : stated? disk p = some record) : IsNamed p := by
  obtain ⟨names, hnames, rfl⟩ := hp
  unfold stated? at h
  cases hread : disk.read (ofNames names) with
  | error e => simp [hread, Except.toOption] at h
  | ok text => exact isNamed_of_read hnames hread

/-- Whether two paths lead to one place. -/
def SameFile (disk : Disk) (p q : Path) : Prop :=
  ∃ place, disk.walk disk.workingDir p.segments = .ok place ∧
    disk.walk disk.workingDir q.segments = .ok place

/-- The files of a chain that begins with an absolute path. -/
theorem exists_ofNames_of_nth? {k : Nat}
    (hp : ∃ names, (∀ n ∈ names, IsName n) ∧ p = ofNames names) (h : nth? disk p k = some q) :
    ∃ names, (∀ n ∈ names, IsName n) ∧ q = ofNames names := by
  induction k generalizing p with
  | zero => exact Option.some.inj h ▸ hp
  | succ k ih =>
    obtain ⟨base, hbase, hrest⟩ := Option.bind_eq_some_iff.mp h
    obtain ⟨record, hrecord, hfind⟩ := Option.bind_eq_some_iff.mp hbase
    obtain ⟨name, _, hfind⟩ := Option.bind_eq_some_iff.mp hfind
    obtain ⟨names, hnames, hdirectory⟩ := (isNamed_of_stated hp hrecord).directoryOf
    rw [hdirectory] at hfind
    exact ih (exists_ofNames_of_findBase? hnames hfind) hrest

/-- A file that another one of the chain follows has been read. -/
theorem exists_read_of_nth? {j k : Nat} {a b : Path} (hj : j < k) (ha : nth? disk p j = some a)
    (hb : nth? disk p k = some b) : ∃ text, disk.read a = .ok text := by
  induction j generalizing p k with
  | zero =>
    obtain rfl := Option.some.inj ha
    obtain ⟨k, rfl⟩ := Nat.exists_eq_succ_of_ne_zero (Nat.ne_of_gt hj)
    obtain ⟨base, hbase, _⟩ := Option.bind_eq_some_iff.mp hb
    obtain ⟨record, hrecord, _⟩ := Option.bind_eq_some_iff.mp hbase
    unfold stated? at hrecord
    cases hread : disk.read p with
    | error e => simp [hread, Except.toOption] at hrecord
    | ok text => exact ⟨text, rfl⟩
  | succ j ih =>
    obtain ⟨k, rfl⟩ := Nat.exists_eq_succ_of_ne_zero (Nat.ne_of_gt (Nat.lt_of_le_of_lt (Nat.zero_le _) hj))
    obtain ⟨base, hbase, ha⟩ := Option.bind_eq_some_iff.mp ha
    obtain ⟨base', hbase', hb⟩ := Option.bind_eq_some_iff.mp hb
    obtain rfl := Option.some.inj (hbase.symm.trans hbase')
    exact ih (Nat.lt_of_succ_lt_succ hj) ha hb

/-- **By absolute paths a file is met again just if its path is.** -/
theorem comesBack_iff_sameFile (hp : p.isAbsolute = true) :
    ComesBack disk (fun a b => (a == b) = true) p.normalize ↔
      ComesBack disk (SameFile disk) p.normalize := by
  have hspelled := exists_ofNames hp
  refine exists_congr fun j => exists_congr fun k => exists_congr fun a => exists_congr fun b => ?_
  constructor
  · rintro ⟨hj, ha, hb, he⟩
    obtain ⟨text, hread⟩ := exists_read_of_nth? hj ha hb
    obtain ⟨place, _, hwalk, _⟩ := Disk.exists_walk_of_read hread
    exact ⟨hj, ha, hb, place, hwalk, by rw [← beq_iff.mp he, hwalk]⟩
  · rintro ⟨hj, ha, hb, place, hwalk, hwalk'⟩
    obtain ⟨names, hnames, rfl⟩ := exists_ofNames_of_nth? hspelled ha
    obtain ⟨names', hnames', rfl⟩ := exists_ofNames_of_nth? hspelled hb
    have hplace : ∀ {names : List String}, (∀ n ∈ names, IsName n) →
        disk.walk disk.workingDir (ofNames names).segments = .ok place → place = names := by
      intro names hnames hwalk
      rw [segments_ofNames hnames] at hwalk
      obtain ⟨next, hstep, hrest⟩ := Disk.walk_cons hwalk
      obtain rfl := Except.ok.inj hstep
      exact Disk.walk_names hrest
    obtain rfl := (hplace hnames hwalk).symm.trans (hplace hnames' hwalk')
    exact ⟨hj, ha, hb, BEq.rfl⟩

/-! ## The failures of a load -/

theorem exists_error_of_mapM {α β ε : Type} {f : α → Except ε β} {xs : List α} {e : ε}
    (h : xs.mapM f = .error e) : ∃ x ∈ xs, f x = .error e := by
  induction xs with
  | nil => cases h
  | cons x xs ih =>
    rw [List.mapM_cons] at h
    cases hx : f x with
    | error e' =>
      rw [hx] at h
      exact ⟨x, List.mem_cons_self .., by rw [hx, Except.error.inj h]⟩
    | ok y =>
      cases hxs : xs.mapM f with
      | error e' =>
        rw [hx, hxs] at h
        obtain ⟨x', hmem, hx'⟩ := ih (hxs.trans (congrArg Except.error (Except.error.inj h)))
        exact ⟨x', List.mem_cons_of_mem _ hmem, hx'⟩
      | ok ys =>
        rw [hx, hxs] at h
        cases h

/-- What a load gives once the chain has been followed. -/
theorem load_eq (disk : Disk) (p : Path) : load disk p =
    (loadChain disk (disk.spellingBound + 1) [] p.normalize).bind fun record =>
      ((record.references.getD []).mapM (referencedConfig disk (directoryOf p.normalize))).map
        fun references => {
          path := p.normalize, directory := directoryOf p.normalize, references
          options := record.options
          files := record.files
          included := record.included
          excluded := record.excluded } := by
  unfold load
  simp only [bind, pure, Except.pure]
  congr 1

/-- What is loaded. -/
theorem load_eq_ok {project : ProjectConfig} (h : load disk p = .ok project) :
    ∃ record, loadChain disk (disk.spellingBound + 1) [] p.normalize = .ok record ∧
      (record.references.getD []).mapM (referencedConfig disk (directoryOf p.normalize)) =
        .ok project.references ∧
      project.path = p.normalize ∧ project.directory = directoryOf p.normalize ∧
      project.options = record.options := by
  rw [load_eq] at h
  cases hchain : loadChain disk (disk.spellingBound + 1) [] p.normalize with
  | error e =>
    rw [hchain] at h
    cases h
  | ok record =>
    rw [hchain] at h
    change Except.map _ (List.mapM _ _) = _ at h
    cases hreferences : (record.references.getD []).mapM
        (referencedConfig disk (directoryOf p.normalize)) with
    | error e =>
      rw [hreferences] at h
      cases h
    | ok references =>
      rw [hreferences] at h
      obtain rfl := Except.ok.inj h
      exact ⟨record, rfl, hreferences, rfl, rfl, rfl⟩

/-- The references of a configuration make no cycle. -/
theorem referencedConfig_ne_baseCycle {directory : Path} {reference : String} :
    referencedConfig disk directory reference ≠ .error (.baseCycle q) := by
  unfold referencedConfig
  simp only
  generalize (if disk.isDirectory (directory.join ⟨reference⟩).normalize then
    (directory.join ⟨reference⟩).normalize.join ⟨standardName⟩
    else (directory.join ⟨reference⟩).normalize) = config
  split <;> exact fun h => by cases h

theorem loads_load (disk : Disk) (p : Path) : Loads disk [] p.normalize
    (loadChain disk (disk.spellingBound + 1) [] p.normalize) :=
  loads_loadChain (passed_nil disk) (Or.inl (isNormal_normalize p)) (Nat.lt_succ_self _)

/-- **Loading fails with a cycle just if the chain comes back to a file.** -/
theorem load_cycle_iff (disk : Disk) (p : Path) : (∃ q, load disk p = .error (.baseCycle q)) ↔
    ComesBack disk (fun a b => (a == b) = true) p.normalize := by
  rw [← returns_nil_iff, ← (loads_load disk p).cycle_iff]
  refine exists_congr fun q => ?_
  rw [load_eq]
  cases loadChain disk (disk.spellingBound + 1) [] p.normalize with
  | error e =>
    rw [Except.error.injEq]
    exact ⟨fun h => Except.error.inj h, fun h => congrArg Except.error h⟩
  | ok record =>
    refine ⟨fun h => ?_, fun h => by cases h⟩
    change Except.map _ (List.mapM _ _) = _ at h
    cases hreferences : (record.references.getD []).mapM
        (referencedConfig disk (directoryOf p.normalize)) with
    | error e =>
      obtain ⟨reference, _, he⟩ := exists_error_of_mapM hreferences
      rw [hreferences] at h
      rw [Except.error.inj h] at he
      exact absurd he referencedConfig_ne_baseCycle
    | ok references =>
      rw [hreferences] at h
      cases h

/-! ## What the files of a chain say -/

/-- A file of a chain, and what it says. -/
structure ConfigFile where
  path : Path
  record : ConfigRecord

/-- The files `files` are a whole chain, the first one at `p`. -/
inductive Chain (disk : Disk) : Path → List ConfigFile → Prop where
  | last {p : Path} {record : ConfigRecord} (hread : stated? disk p = some record)
      (hbase : record.base = none) : Chain disk p [⟨p, record⟩]
  | next {p q : Path} {record : ConfigRecord} {name : String} {files : List ConfigFile}
      (hread : stated? disk p = some record) (hbase : record.base = some name)
      (hfind : findBase? disk (directoryOf p) name = some q) (hrest : Chain disk q files) :
      Chain disk p (⟨p, record⟩ :: files)

/-- A directory that a file names, taken from the directory of the file. -/
def takenFrom (directory : Path) (dir : String) : Path :=
  if (⟨dir⟩ : Path).isAbsolute then ⟨dir⟩ else (directory.join ⟨dir⟩).normalize

namespace ConfigFile

/-- The options that a file says, with its output directory taken from its own directory. -/
def patch (file : ConfigFile) : OptionsPatch :=
  (file.record.inDirectory (directoryOf file.path)).options

/-- Where the output directory is that a file says. -/
def outDir (file : ConfigFile) : Option Path :=
  file.record.options.outDir.map (takenFrom (directoryOf file.path))

theorem outDir_patch (file : ConfigFile) : file.patch.outDir = file.outDir.map Path.text := by
  unfold patch outDir ConfigRecord.inDirectory
  rw [Option.map_map]
  refine Option.map_congr fun dir _ => ?_
  unfold takenFrom
  rw [Function.comp_apply, apply_ite Path.text]

end ConfigFile

/-- A chain that can be followed gives the options of its files, laid over each other, and the
references of the first one. -/
theorem Loads.exists_chain {visited : List Path} {record : ConfigRecord}
    (h : Loads disk visited p (.ok record)) : ∃ file files, Chain disk p (file :: files) ∧
      file.path = p ∧ record.references = file.record.references ∧
      record.options = ((file :: files).map ConfigFile.patch).foldr OptionsPatch.or {} := by
  generalize hresult : Except.ok record = result at h
  induction h generalizing record with
  | cycle _ | unread _ _ | lost _ _ _ _ => contradiction
  | @last visited p last hnew hread hbase =>
    obtain rfl := Except.ok.inj hresult
    obtain ⟨stated, hstated, rfl⟩ := readRecord_eq_ok_iff.mp hread
    exact ⟨⟨p, stated⟩, [], .last hstated hbase, rfl, rfl, (OptionsPatch.or_empty _).symm⟩
  | @further visited p base own name result hnew hread hbase hfind hrest ih =>
    cases result with
    | error e => contradiction
    | ok inner =>
      obtain rfl := Except.ok.inj hresult
      obtain ⟨stated, hstated, rfl⟩ := readRecord_eq_ok_iff.mp hread
      obtain ⟨file, files, hchain, _, _, hoptions⟩ := ih rfl
      refine ⟨⟨p, stated⟩, file :: files, .next hstated hbase hfind hchain, rfl, rfl, ?_⟩
      show (stated.inDirectory (directoryOf p)).options.or inner.options = _
      rw [hoptions]
      rfl

theorem isNamed_of_mem_chain {files : List ConfigFile} (h : Chain disk p files)
    (hp : ∃ names, (∀ n ∈ names, IsName n) ∧ p = ofNames names) :
    ∀ file ∈ files, IsNamed file.path := by
  induction h with
  | last hread _ =>
    intro file hfile
    obtain rfl := List.mem_singleton.mp hfile
    exact isNamed_of_stated hp hread
  | next hread _ hfind _ ih =>
    have hnamed := isNamed_of_stated hp hread
    obtain ⟨names, hnames, hdirectory⟩ := hnamed.directoryOf
    rw [hdirectory] at hfind
    exact List.forall_mem_cons.mpr ⟨hnamed, ih (exists_ofNames_of_findBase? hnames hfind)⟩

end Config

/-! ## Layers -/

/-- What one layer says of the options. -/
structure OptionLayer where
  stated : OptionsPatch
  /-- Where the output directory is that it says. -/
  outDir : Option Path

/-- The layer of a file. -/
def Config.ConfigFile.layer (file : ConfigFile) : OptionLayer := ⟨file.record.options, file.outDir⟩

/-- The layer of a file whose output directory is taken from `base` once more. -/
def Config.ConfigFile.layerFrom (base : Path) (file : ConfigFile) : OptionLayer :=
  ⟨file.record.options, file.outDir.map base.join⟩

/-- The two layers of a host: its shorthands, and the options that it sets, with the output directory
taken from `base`. -/
def LoaderOptions.layers (loader : LoaderOptions) (base : Path) : List OptionLayer :=
  [⟨{ target := loader.target, module := loader.module, sourceMap := loader.sourceMap }, none⟩,
    ⟨loader.compilerOptions, loader.compilerOptions.outDir.map fun dir => base.join ⟨dir⟩⟩]

/-- A value is the one that a name stands for, or the default if nothing is said. -/
def Chosen {α : Type} (ofName? : String → Option α) (default : α) (said : Option String)
    (value : α) : Prop :=
  match said with
  | none => value = default
  | some name => ofName? name = some value

/-- Each option is that of the first layer that sets it, and has its default if none does. -/
structure SetBy (layers : List OptionLayer) (options : CompilerOptions) : Prop where
  target : Chosen ScriptTarget.ofName? .es5 (layers.findSome? fun l => l.stated.target) options.target
  module : Chosen ModuleKind.ofName? .commonJs (layers.findSome? fun l => l.stated.module)
    options.module
  sourceMap : options.sourceMap = (layers.findSome? fun l => l.stated.sourceMap).getD false
  outDir : options.outDir = layers.findSome? OptionLayer.outDir
  noLib : options.noLib = (layers.findSome? fun l => l.stated.noLib).getD false
  jsx : Chosen (fun name => (JsxMode.ofName? name).map some) none
    (layers.findSome? fun l => l.stated.jsx) options.jsx
  /-- A composite project emits declarations unless a layer says otherwise. -/
  declaration : options.declaration =
    (layers.findSome? fun l => l.stated.declaration).getD options.composite
  composite : options.composite = (layers.findSome? fun l => l.stated.composite).getD false

/-- An option of patches that are laid over each other is that of the first one that has it. -/
theorem field_foldr_or {α : Type} {field : OptionsPatch → Option α}
    (hor : ∀ p q, field (p.or q) = (field p).or (field q)) (hempty : field {} = none)
    (patches : List OptionsPatch) :
    field (patches.foldr OptionsPatch.or {}) = patches.findSome? field := by
  induction patches with
  | nil => exact hempty
  | cons patch patches ih =>
    rw [List.foldr_cons, hor, ih, List.findSome?_cons]
    cases field patch <;> rfl

theorem chosen_of_readName {α : Type} {option : String} {ofName? : String → Option α}
    {default value : α} {said : Option String}
    (h : CompilerOptions.readName option ofName? default said = .ok value) :
    Chosen ofName? default said value := by
  unfold CompilerOptions.readName at h
  cases said with
  | none => exact (Except.ok.inj h).symm
  | some name =>
    show ofName? name = some value
    cases hname : ofName? name with
    | none => simp [hname] at h
    | some found =>
      simp only [hname] at h
      rw [Except.ok.inj h]

theorem resolve_eq_ok {query project : OptionsPatch} {base : Path} {options : CompilerOptions}
    (h : CompilerOptions.resolve query project base = .ok options) :
    Chosen ScriptTarget.ofName? .es5 (query.or project).target options.target ∧
    Chosen ModuleKind.ofName? .commonJs (query.or project).module options.module ∧
    Chosen (fun name => (JsxMode.ofName? name).map some) none (query.or project).jsx options.jsx ∧
    options.sourceMap = (query.or project).sourceMap.getD false ∧
    options.outDir = (query.or project).outDir.map (fun dir => base.join ⟨dir⟩) ∧
    options.noLib = (query.or project).noLib.getD false ∧
    options.declaration = (query.or project).declaration.getD options.composite ∧
    options.composite = (query.or project).composite.getD false := by
  unfold CompilerOptions.resolve at h
  simp only [bind, Except.bind, pure, Except.pure] at h
  split at h
  · contradiction
  · rename_i target htarget
    split at h
    · contradiction
    · rename_i module hmodule
      split at h
      · contradiction
      · rename_i jsx hjsx
        obtain rfl := Except.ok.inj h
        exact ⟨chosen_of_readName htarget, chosen_of_readName hmodule, chosen_of_readName hjsx,
          rfl, rfl, rfl, rfl, rfl⟩

section Layers

variable {loader : LoaderOptions} {base : Path} {files : List Config.ConfigFile}

/-- The options of a host and of some files, one behind the other. -/
def patchesOf (loader : LoaderOptions) (files : List Config.ConfigFile) : List OptionsPatch :=
  { target := loader.target, module := loader.module, sourceMap := loader.sourceMap } ::
    loader.compilerOptions :: files.map Config.ConfigFile.patch

/-- The directory of a file changes none of the other options. -/
theorem findSome?_patchesOf {α : Type} {field : OptionsPatch → Option α}
    (hfield : ∀ (record : ConfigRecord) directory,
      field (record.inDirectory directory).options = field record.options) :
    (patchesOf loader files).findSome? field =
      (loader.layers base ++ files.map (Config.ConfigFile.layerFrom base)).findSome? fun l =>
        field l.stated := by
  have hfiles : field ∘ Config.ConfigFile.patch =
      (fun l : OptionLayer => field l.stated) ∘ Config.ConfigFile.layerFrom base :=
    funext fun file => hfield file.record _
  rw [patchesOf, LoaderOptions.layers, List.findSome?_append]
  simp only [List.findSome?_cons, List.findSome?_nil, List.findSome?_map, hfiles]
  cases field { target := loader.target, module := loader.module, sourceMap := loader.sourceMap }
  · cases field loader.compilerOptions <;> rfl
  · rfl

/-- Every output directory is taken from `base`. -/
theorem findSome?_outDir :
    ((patchesOf loader files).findSome? OptionsPatch.outDir).map (fun dir => base.join ⟨dir⟩) =
      (loader.layers base ++ files.map (Config.ConfigFile.layerFrom base)).findSome?
        OptionLayer.outDir := by
  have hfile : (fun patch : OptionsPatch => patch.outDir.map fun dir => base.join ⟨dir⟩) ∘
      Config.ConfigFile.patch = OptionLayer.outDir ∘ Config.ConfigFile.layerFrom base := by
    funext file
    rw [Function.comp_apply, file.outDir_patch, Option.map_map]
    rfl
  rw [List.map_findSome?, patchesOf, LoaderOptions.layers, List.findSome?_append]
  show ((_ :: loader.compilerOptions :: _).findSome? fun patch : OptionsPatch =>
    patch.outDir.map fun dir => base.join ⟨dir⟩) = _
  simp only [List.findSome?_cons, List.findSome?_nil, List.findSome?_map, hfile, Option.map_none]
  cases loader.compilerOptions.outDir <;> rfl

/-- **Options that resolve are those of the layers.** -/
theorem setBy_of_resolve {project : OptionsPatch} {options : CompilerOptions}
    (hproject : project = (files.map Config.ConfigFile.patch).foldr OptionsPatch.or {})
    (h : CompilerOptions.resolve loader.queryPatch project base = .ok options) :
    SetBy (loader.layers base ++ files.map (Config.ConfigFile.layerFrom base)) options := by
  have hmerged : loader.queryPatch.or project = (patchesOf loader files).foldr OptionsPatch.or {} := by
    rw [LoaderOptions.queryPatch, OptionsPatch.or_assoc, hproject]
    rfl
  obtain ⟨htarget, hmodule, hjsx, hsourceMap, houtDir, hnoLib, hdeclaration, hcomposite⟩ :=
    resolve_eq_ok h
  have hfield : ∀ {α : Type} {field : OptionsPatch → Option α},
      (∀ p q, field (p.or q) = (field p).or (field q)) → field {} = none →
      (∀ (record : ConfigRecord) directory,
        field (record.inDirectory directory).options = field record.options) →
      field (loader.queryPatch.or project) =
        (loader.layers base ++ files.map (Config.ConfigFile.layerFrom base)).findSome? fun l =>
          field l.stated := by
    intro α field hor hempty hdirectory
    rw [hmerged, field_foldr_or hor hempty, findSome?_patchesOf hdirectory]
  rw [hmerged, @field_foldr_or _ OptionsPatch.outDir (fun _ _ => rfl) rfl, findSome?_outDir]
    at houtDir
  rw [@hfield _ OptionsPatch.target (fun _ _ => rfl) rfl fun _ _ => rfl] at htarget
  rw [@hfield _ OptionsPatch.module (fun _ _ => rfl) rfl fun _ _ => rfl] at hmodule
  rw [@hfield _ OptionsPatch.jsx (fun _ _ => rfl) rfl fun _ _ => rfl] at hjsx
  rw [@hfield _ OptionsPatch.sourceMap (fun _ _ => rfl) rfl fun _ _ => rfl] at hsourceMap
  rw [@hfield _ OptionsPatch.noLib (fun _ _ => rfl) rfl fun _ _ => rfl] at hnoLib
  rw [@hfield _ OptionsPatch.declaration (fun _ _ => rfl) rfl fun _ _ => rfl] at hdeclaration
  rw [@hfield _ OptionsPatch.composite (fun _ _ => rfl) rfl fun _ _ => rfl] at hcomposite
  exact ⟨htarget, hmodule, hsourceMap, houtDir, hnoLib, hjsx, hdeclaration, hcomposite⟩

end Layers

namespace Config

open TypeScriptEngine.Path

theorem isAbsolute_takenFrom {directory : Path} (h : directory.isAbsolute = true) (dir : String) :
    (takenFrom directory dir).isAbsolute = true := by
  unfold takenFrom
  split
  · assumption
  · rw [isAbsolute_normalize, isAbsolute_join h]

/-- An absolute output directory is not taken from anywhere else. -/
theorem IsNamed.layerFrom_eq {file : ConfigFile} (h : IsNamed file.path) (base : Path) :
    file.layerFrom base = file.layer := by
  obtain ⟨names, hnames, hdirectory⟩ := h.directoryOf
  have habsolute : ∀ dir, file.outDir = some dir → dir.isAbsolute = true := by
    intro dir hdir
    obtain ⟨said, _, rfl⟩ := Option.map_eq_some_iff.mp hdir
    rw [hdirectory]
    exact isAbsolute_takenFrom (isAbsolute_ofNames hnames) said
  unfold ConfigFile.layerFrom ConfigFile.layer
  congr 1
  cases hdir : file.outDir with
  | none => rfl
  | some dir => exact congrArg some (if_pos (habsolute dir hdir))

end Config

end TypeScriptEngine
