import TypeScriptEngine.Proofs.Json.Printed
import TypeScriptEngine.SourceMap.Basic

/-! # Reading printed source maps

A text is read as a source map just if its fields describe the map (`Describes`), in whatever order
they stand and whatever other fields are among them: a field without a value is left out or null.
The printed text of a map describes it.  So a source map is read back as it was printed
(`parse?_print`), whichever of its optional fields are there and whatever its texts hold, and from the
other texts that describe it (`maps_survive_printing`).
-/

namespace TypeScriptEngine.SourceMap

open Json (isPlain arePlain areFieldsPlain)

/-! ## Values of fields -/

theorem arePlain_map {α : Type} {f : α → Json} (h : ∀ x, isPlain (f x) = true) (xs : List α) :
    arePlain (xs.map f) = true := by
  induction xs with
  | nil => rfl
  | cons x xs ih => rw [List.map_cons, arePlain, h, ih, Bool.and_self]

theorem areFieldsPlain_append (fields fields' : List (String × Json)) :
    areFieldsPlain (fields ++ fields') = (areFieldsPlain fields && areFieldsPlain fields') := by
  induction fields with
  | nil => rfl
  | cons field fields ih =>
    obtain ⟨key, value⟩ := field
    rw [List.cons_append, areFieldsPlain, areFieldsPlain, ih, Bool.and_assoc]

theorem areFieldsPlain_optionalField {α : Type} {write : α → Json}
    (h : ∀ x, isPlain (write x) = true) (key : String) (value : Option α) :
    areFieldsPlain (optionalField key write value) = true := by
  cases value with
  | none => rfl
  | some x => simp [optionalField, areFieldsPlain, h]

/-- What is read as a value is what the value is written as, and nothing else. -/
structure Inverts {α : Type} (read? : Json → Option α) (write : α → Json) : Prop where
  iff : ∀ {value x}, read? value = some x ↔ value = write x

theorem inverts_string : Inverts Json.asString? .string where
  iff {value _} := by cases value <;> simp [Json.asString?]

theorem Inverts.list {α : Type} {read? : Json → Option α} {write : α → Json}
    (h : Inverts read? write) : Inverts (Json.listOf read?) fun xs => .array (xs.map write) := by
  have hitems : ∀ (items : List Json) (xs : List α),
      items.mapM read? = some xs ↔ items = xs.map write := by
    intro items
    induction items with
    | nil =>
      intro xs
      cases xs <;> simp
    | cons item items ih =>
      intro xs
      rw [List.mapM_cons]
      cases xs with
      | nil => simp [Option.bind_eq_some_iff]
      | cons x xs => simp [Option.bind_eq_some_iff, h.iff, ih]
  constructor
  intro value xs
  cases value <;> simp [Json.listOf, Json.asArray?, hitems]

/-- A value or null. -/
theorem Inverts.nullable {α : Type} {read? : Json → Option α} {write : α → Json}
    (h : Inverts read? write) (hnull : ∀ x, write x ≠ .null) :
    Inverts (Json.nullable read?) fun x => (x.map write).getD .null := by
  constructor
  intro value x
  by_cases hvalue : value = .null
  · subst hvalue
    cases x with
    | none => simp [Json.nullable]
    | some x => simpa [Json.nullable] using (hnull x).symm
  · have hread : Json.nullable read? value = (read? value).map some := by
      unfold Json.nullable
      split
      · contradiction
      · rfl
    rw [hread]
    cases x with
    | none => simpa using hvalue
    | some x => simp [h.iff]

theorem asNat32?_eq_some_iff {value : Json} {n : Nat} :
    Json.asNat32? value = some n ↔ value = .integer n ∧ n < 2 ^ 32 := by
  have hpow : Nat.pow 2 32 = 2 ^ 32 := rfl
  cases value with
  | integer k =>
    cases k with
    | ofNat m =>
      simp only [Json.asNat32?, hpow, Option.ite_none_right_eq_some, Option.some_inj,
        Json.integer.injEq, Int.ofNat_eq_natCast, Int.natCast_inj]
      exact ⟨fun ⟨hlt, he⟩ => ⟨he, he ▸ hlt⟩, fun ⟨he, hlt⟩ => ⟨he ▸ hlt, he⟩⟩
    | negSucc m => simp [Json.asNat32?]
  | _ => simp [Json.asNat32?]

/-! ## Fields -/

/-- The values that some fields have at a key. -/
def valuesAt (key : String) (fields : List (String × Json)) : List Json :=
  (fields.filter fun field => field.1 == key).map Prod.snd

/-- How a field may be written that can be left out: not at all or as null if it has no value. -/
def optionalValues {α : Type} (write : α → Json) : Option α → List (List Json)
  | none => [[], [.null]]
  | some x => [[write x]]

/-- The texts of the sources as an array. -/
def contentsArray (texts : List (Option String)) : Json :=
  .array (texts.map fun text => (text.map .string).getD .null)

/-- The fields at the keys of a map say what the map is. -/
structure Describes (map : SourceMap) (fields : List (String × Json)) : Prop where
  version : valuesAt "version" fields = [.integer map.version]
  file : valuesAt "file" fields ∈ optionalValues .string map.file
  sourceRoot : valuesAt "sourceRoot" fields ∈ optionalValues .string map.sourceRoot
  sources : valuesAt "sources" fields = [stringArray map.sources]
  sourcesContent : valuesAt "sourcesContent" fields ∈
    optionalValues contentsArray map.sourcesContent
  /-- The names may be left out if there are none. -/
  names : valuesAt "names" fields = [stringArray map.names] ∨
    map.names = [] ∧ valuesAt "names" fields = []
  mappings : valuesAt "mappings" fields = [.string map.mappings]

/-- The value at a key of which there is one at most. -/
def lookUp (fields : List (String × Json)) : Json.Fields := fun key => (valuesAt key fields).head?

/-- The fields of an object are those of a record if no key of the record is there twice. -/
theorem fields?_eq_some_iff {keys : List String} {fields : List (String × Json)}
    {found : Json.Fields} :
    (Json.object fields).fields? .strict keys = some found ↔
      (∀ key ∈ keys, (valuesAt key fields).length ≤ 1) ∧ found = lookUp fields := by
  have hfound : (fun key => (fields.find? fun field => field.1 == key).map Prod.snd) =
      lookUp fields := by
    funext key
    rw [lookUp, valuesAt, List.head?_map, List.head?_filter]
  have htwice : (keys.any fun key =>
      decide (1 < (fields.filter fun field => field.1 == key).length)) = true ↔
        ¬ ∀ key ∈ keys, (valuesAt key fields).length ≤ 1 := by
    simp [valuesAt]
  rw [Json.fields?]
  split
  · rename_i h
    exact ⟨fun h' => by contradiction, fun h' => absurd h'.1 (htwice.mp h)⟩
  · rename_i h
    rw [hfound, if_pos (by rfl), Option.some_inj]
    exact ⟨fun h' => ⟨not_not.mp (mt htwice.mpr h), h'.symm⟩, fun h' => h'.2.symm⟩

section Reading

variable {α : Type} {fields : List (String × Json)} {key : String} {read? : Json → Option α}
  {write : α → Json}

theorem required_eq_some_iff (hone : (valuesAt key fields).length ≤ 1) {x : α} :
    Json.required (lookUp fields) key read? = some x ↔
      ∃ value, valuesAt key fields = [value] ∧ read? value = some x := by
  rw [Json.required, lookUp]
  match hvalues : valuesAt key fields with
  | [] => simp
  | [value] => simp
  | _ :: _ :: _ => simp [hvalues] at hone

theorem defaulted_eq_some_iff {default : α} (hone : (valuesAt key fields).length ≤ 1) {x : α} :
    Json.defaulted (lookUp fields) key default read? = some x ↔
      (valuesAt key fields = [] ∧ x = default) ∨
        ∃ value, valuesAt key fields = [value] ∧ read? value = some x := by
  rw [Json.defaulted, lookUp]
  match hvalues : valuesAt key fields with
  | [] => simp [eq_comm]
  | [value] => simp
  | _ :: _ :: _ => simp [hvalues] at hone

theorem optional_eq_some_iff (h : Inverts read? write) (hnull : ∀ x, write x ≠ .null)
    (hone : (valuesAt key fields).length ≤ 1) {x : Option α} :
    Json.optional (lookUp fields) key read? = some x ↔
      valuesAt key fields ∈ optionalValues write x := by
  rw [Json.optional, defaulted_eq_some_iff hone]
  simp only [(h.nullable hnull).iff]
  cases x <;> simp [optionalValues]

end Reading

theorem Describes.length_le {map : SourceMap} {fields : List (String × Json)}
    (h : Describes map fields) {key : String} (hkey : key ∈ keys) :
    (valuesAt key fields).length ≤ 1 := by
  have hoptional : ∀ {α : Type} {write : α → Json} {x : Option α} {values : List Json},
      values ∈ optionalValues write x → values.length ≤ 1 := by
    intro α write x values hvalues
    cases x with
    | none =>
      simp only [optionalValues, List.mem_cons, List.not_mem_nil, or_false] at hvalues
      rcases hvalues with rfl | rfl <;> simp
    | some x =>
      obtain rfl := List.mem_singleton.mp hvalues
      simp
  simp only [keys, List.mem_cons, List.not_mem_nil, or_false] at hkey
  rcases hkey with rfl | rfl | rfl | rfl | rfl | rfl | rfl
  · simp [h.version]
  · exact hoptional h.file
  · exact hoptional h.sourceRoot
  · simp [h.sources]
  · exact hoptional h.sourcesContent
  · rcases h.names with hnames | ⟨_, hnames⟩ <;> simp [hnames]
  · simp [h.mappings]

/-- The fields of a map are read one by one. -/
theorem ofJson?_eq_some_iff {map : SourceMap} {json : Json} {found : Json.Fields}
    (h : json.fields? .strict keys = some found) :
    ofJson? json = some map ↔
      Json.required found "version" Json.asNat32? = some map.version ∧
      Json.optional found "file" Json.asString? = some map.file ∧
      Json.optional found "sourceRoot" Json.asString? = some map.sourceRoot ∧
      Json.required found "sources" (Json.listOf Json.asString?) = some map.sources ∧
      Json.optional found "sourcesContent" (Json.listOf (Json.nullable Json.asString?)) =
        some map.sourcesContent ∧
      Json.defaulted found "names" [] (Json.listOf Json.asString?) = some map.names ∧
      Json.required found "mappings" Json.asString? = some map.mappings := by
  rw [ofJson?, h]
  simp only [Option.bind_eq_bind, Option.bind_some, Option.bind_eq_some_iff, Option.pure_def,
    Option.some_inj]
  constructor
  · rintro ⟨version, hversion, file, hfile, root, hroot, sources, hsources, contents, hcontents,
      names, hnames, mappings, hmappings, rfl⟩
    exact ⟨hversion, hfile, hroot, hsources, hcontents, hnames, hmappings⟩
  · rintro ⟨hversion, hfile, hroot, hsources, hcontents, hnames, hmappings⟩
    exact ⟨_, hversion, _, hfile, _, hroot, _, hsources, _, hcontents, _, hnames, _, hmappings, rfl⟩

/-- **A map is read from the fields that describe it,** and from no others. -/
theorem ofJson?_object_eq_some_iff {map : SourceMap} {fields : List (String × Json)} :
    ofJson? (.object fields) = some map ↔ map.version < 2 ^ 32 ∧ Describes map fields := by
  have htexts : Inverts (Json.listOf Json.asString?) stringArray := inverts_string.list
  have hcontents : Inverts (Json.listOf (Json.nullable Json.asString?)) contentsArray :=
    (inverts_string.nullable fun _ => by simp).list
  have hstring : ∀ text : String, Json.string text ≠ .null := fun _ => by simp
  have harray : ∀ texts, contentsArray texts ≠ .null := fun _ => by simp [contentsArray]
  by_cases hone : ∀ key ∈ keys, (valuesAt key fields).length ≤ 1
  · have hfields : (Json.object fields).fields? .strict keys = some (lookUp fields) :=
      fields?_eq_some_iff.mpr ⟨hone, rfl⟩
    rw [ofJson?_eq_some_iff hfields, required_eq_some_iff (hone _ (by decide)),
      optional_eq_some_iff inverts_string hstring (hone _ (by decide)),
      optional_eq_some_iff inverts_string hstring (hone _ (by decide)),
      required_eq_some_iff (hone _ (by decide)),
      optional_eq_some_iff hcontents harray (hone _ (by decide)),
      defaulted_eq_some_iff (hone _ (by decide)), required_eq_some_iff (hone _ (by decide))]
    simp only [asNat32?_eq_some_iff, htexts.iff, inverts_string.iff]
    constructor
    · rintro ⟨⟨_, hversion, rfl, hlt⟩, hfile, hroot, ⟨_, hsources, rfl⟩, hcontents, hnames,
        ⟨_, hmappings, rfl⟩⟩
      refine ⟨hlt, hversion, hfile, hroot, hsources, hcontents, ?_, hmappings⟩
      rcases hnames with ⟨hnone, hempty⟩ | ⟨_, hnames, rfl⟩
      · exact Or.inr ⟨hempty, hnone⟩
      · exact Or.inl hnames
    · rintro ⟨hlt, h⟩
      refine ⟨⟨_, h.version, rfl, hlt⟩, h.file, h.sourceRoot, ⟨_, h.sources, rfl⟩, h.sourcesContent,
        ?_, ⟨_, h.mappings, rfl⟩⟩
      rcases h.names with hnames | ⟨hempty, hnone⟩
      · exact Or.inr ⟨_, hnames, rfl⟩
      · exact Or.inl ⟨hnone, hempty⟩
  · -- a key is there twice
    constructor
    · intro h
      obtain ⟨found, hfound, _⟩ := Option.bind_eq_some_iff.mp h
      exact absurd (fields?_eq_some_iff.mp hfound).1 hone
    · exact fun h => absurd (fun key hkey => h.2.length_le hkey) hone

/-- The JSON form of a map describes it. -/
theorem exists_describes_toJson (map : SourceMap) :
    ∃ fields, map.toJson = .object fields ∧ Describes map fields := by
  refine ⟨_, rfl, ?_⟩
  obtain ⟨version, file, sourceRoot, sources, sourcesContent, names, mappings⟩ := map
  constructor
  all_goals
    cases file <;> cases sourceRoot <;> cases sourcesContent <;>
      simp [valuesAt, optionalField, optionalValues, contentsArray]

/-! ## Maps -/

theorem isPlain_toJson {map : SourceMap} (h : map.version < 2 ^ 32) :
    isPlain map.toJson = true := by
  have hversion : isPlain (.integer map.version) = true := by
    simp only [isPlain, Bool.and_eq_true, decide_eq_true_eq]
    omega
  have hstring : ∀ s, isPlain (.string s) = true := fun _ => rfl
  have htexts : ∀ texts, isPlain (stringArray texts) = true := fun texts => arePlain_map hstring texts
  have hcontents : ∀ texts, isPlain (contentsArray texts) = true := by
    refine fun texts => arePlain_map (fun text => ?_) texts
    cases text <;> rfl
  rw [toJson, isPlain]
  simp only [areFieldsPlain_append, areFieldsPlain, hversion, htexts, hstring, Bool.and_true,
    Bool.true_and, areFieldsPlain_optionalField hstring]
  exact areFieldsPlain_optionalField hcontents _ _

theorem ofJson?_toJson {map : SourceMap} (h : map.version < 2 ^ 32) :
    ofJson? map.toJson = some map := by
  obtain ⟨fields, hfields, hdescribes⟩ := exists_describes_toJson map
  rw [hfields, ofJson?_object_eq_some_iff]
  exact ⟨h, hdescribes⟩

/-- **A printed map is read back.** -/
theorem parse?_print {map : SourceMap} (h : map.version < 2 ^ 32) : parse? map.print = some map := by
  rw [parse?, print, Json.parse?_compact (isPlain_toJson h), Option.bind_some, ofJson?_toJson h]

/-- **Source maps survive being printed.**  A map whose version fits into 32 bits is read back from
its text, and from the text of any other object with the same fields: they may stand in another order
and among others, and those without a value may be null.  No other object is read as the map. -/
theorem maps_survive_printing {map : SourceMap} (h : map.version < 2 ^ 32) :
    parse? map.print = some map ∧
    ∀ (text : String) (fields : List (String × Json)), Json.parse? text = some (.object fields) →
      (parse? text = some map ↔ Describes map fields) := by
  refine ⟨parse?_print h, fun text fields htext => ?_⟩
  rw [parse?, htext, Option.bind_some, ofJson?_object_eq_some_iff]
  exact and_iff_right h

/-- A map with texts that have to be escaped, and with a source whose text is not known. -/
def escapedMap : SourceMap where
  version := 2 ^ 32 - 1
  file := none
  sourceRoot := some "/"
  sources := ["\"é\".ts", "\\\t"]
  sourcesContent := some [some "let a = '\x01';\r\n😀", none]
  names := []
  mappings := "AAAA"

/-- Its fields in another order, without the names, with one that is null and one that no map has. -/
def rearrangedFields : List (String × Json) :=
  [("mappings", .string "AAAA"), ("x", .array []), ("file", .null),
    ("sources", stringArray ["\"é\".ts", "\\\t"]), ("version", .integer (2 ^ 32 - 1)),
    ("sourceRoot", .string "/"),
    ("sourcesContent", .array [.string "let a = '\x01';\r\n😀", .null])]

/-- The map is read back from its own text, and from that of the rearranged fields. -/
theorem maps_survive_printing_escapedMap :
    escapedMap.version < 2 ^ 32 ∧ parse? escapedMap.print = some escapedMap ∧
      parse? (Json.object rearrangedFields).compact = some escapedMap := by
  have hversion : escapedMap.version < 2 ^ 32 := by decide
  obtain ⟨hprinted, hread⟩ := maps_survive_printing hversion
  have htext : Json.parse? (Json.object rearrangedFields).compact =
      some (.object rearrangedFields) := Json.parse?_compact (by decide)
  refine ⟨hversion, hprinted, (hread _ _ htext).mpr ?_⟩
  exact ⟨rfl, List.mem_cons_of_mem _ (List.mem_cons_self ..), List.mem_cons_self .., rfl,
    List.mem_cons_self .., Or.inr ⟨rfl, rfl⟩, rfl⟩

end TypeScriptEngine.SourceMap
