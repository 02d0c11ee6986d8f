import TypeScriptEngine.Proofs.Emit.Erasing

/-! # What rewriting copies

Without ES modules an `import` or `export` declaration gives way to statements that are made of a few
words of the emitter's own, generated names, and names and literals of the declaration.  `copied`
lists those of the last kind, and they are where line breaks come from (`noBreaks_visit_iff`).
-/

namespace TypeScriptEngine.Emit

open TokenStream

/-! ## Texts on one line -/

/-- The text holds no line break. -/
def OneLine (s : String) : Prop := '\n' ∉ s.toList

instance (s : String) : Decidable (OneLine s) := inferInstanceAs (Decidable (_ ∉ _))

@[simp] theorem oneLine_append {s t : String} : OneLine (s ++ t) ↔ OneLine s ∧ OneLine t := by
  simp [OneLine, not_or]

@[simp] theorem oneLine_join {texts : List String} :
    OneLine (String.join texts) ↔ ∀ s ∈ texts, OneLine s := by
  simp [OneLine]

theorem oneLine_intercalate {separator : String} (h : OneLine separator) {texts : List String} :
    OneLine (separator.intercalate texts) ↔ ∀ s ∈ texts, OneLine s := by
  induction texts with
  | nil => simp [OneLine]
  | cons text texts ih =>
    cases texts with
    | nil => simp
    | cons next texts =>
      rw [String.intercalate_cons_cons, oneLine_append, oneLine_append, ih,
        List.forall_mem_cons (a := text), and_iff_left h]

/-- A number is written with digits. -/
theorem isDigit_of_mem_toString {c : Char} {n : Nat} (h : c ∈ (toString n).toList) :
    c.isDigit = true :=
  Nat.isDigit_of_mem_toDigits (by decide) (by decide) (Nat.toList_repr ▸ h)

theorem oneLine_toString (n : Nat) : OneLine (toString n) :=
  fun h => absurd (isDigit_of_mem_toString h) (by decide)

/-- A name made for a module stands on one line, whatever the specifier. -/
theorem oneLine_moduleNameStem (specifier : String) : OneLine (moduleNameStem specifier) := by
  have hplain (c : Char) : (if isPlainNamePart c then c else '_') ≠ '\n' := by
    split
    · rintro rfl
      contradiction
    · decide
  have hname (cs : List Char) : '\n' ∉ cs.map fun c => if isPlainNamePart c then c else '_' := by
    intro h
    obtain ⟨c, _, hc⟩ := List.mem_map.mp h
    exact hplain c hc
  unfold moduleNameStem OneLine
  simp only
  split
  · rw [String.toList_ofList, List.mem_cons, not_or]
    exact ⟨by decide, hname _⟩
  · rw [String.toList_ofList]
    exact hname _

@[simp] theorem oneLine_temporaryName (specifier : String) (n : Nat) :
    OneLine (temporaryName specifier n) := by
  simp only [temporaryName, oneLine_append]
  exact ⟨⟨oneLine_moduleNameStem specifier, by decide⟩, oneLine_toString n⟩

/-! ## Changes without line breaks -/

/-- No change brings in a line break. -/
def NoBreaks (changes : List Change) : Prop := ∀ c ∈ changes, ∀ text ∈ c.newText?, OneLine text

@[simp] theorem noBreaks_nil : NoBreaks [] := fun _ h => by contradiction

@[simp] theorem noBreaks_cons {c : Change} {changes : List Change} :
    NoBreaks (c :: changes) ↔ (∀ text ∈ c.newText?, OneLine text) ∧ NoBreaks changes :=
  List.forall_mem_cons

@[simp] theorem newText?_replace (first stop : Nat) (text : String) :
    (Change.replace first stop text).newText? = some text := rfl

@[simp] theorem newText?_insertAfter (i : Nat) (text : String) :
    (Change.insertAfter i text).newText? = some text := rfl

theorem noBreaks_replace {first stop : Nat} {text : String} :
    NoBreaks [.replace first stop text] ↔ OneLine text := by
  simp

theorem Erasing.noBreaks {changes : List Change} (h : Erasing changes) : NoBreaks changes := by
  intro c hc text htext
  rw [h c hc] at htext
  contradiction

/-! ## Imports -/

variable {goal : Goal} {ts : TokenStream} {d : Draft} {i : Nat}

/-- The texts of pairs of names. -/
def bothNames (names : List (String × String)) : List String := names.flatMap fun n => [n.1, n.2]

theorem forall_bothNames {names : List (String × String)} :
    (∀ s ∈ bothNames names, OneLine s) ↔ ∀ n ∈ names, OneLine n.1 ∧ OneLine n.2 := by
  simp only [bothNames, List.mem_flatMap, List.mem_cons, List.not_mem_nil, or_false]
  constructor
  · exact fun h n hn => ⟨h _ ⟨n, hn, .inl rfl⟩, h _ ⟨n, hn, .inr rfl⟩⟩
  · rintro h s ⟨n, hn, rfl | rfl⟩
    · exact (h n hn).1
    · exact (h n hn).2

/-- What is copied from an import with an equals sign: nothing unless it calls `require`. -/
def copiedByEquals (ts : TokenStream) (i : Nat) : List String :=
  if ts.kind (i + 3) == .kwRequire && ts.kind (i + 4) == .lparen &&
      ts.kind (i + 5) == .stringLiteral then [ts.value (i + 1), ts.source (i + 5)]
  else []

/-- What is copied from the import declaration at `i`: the literal that names the module, and the
names that are bound.  Nothing is copied from an import of types. -/
def copiedByImport (ts : TokenStream) (i : Nat) : List String :=
  if isTypeImport ts (i + 1) then []
  else if (ts.kind (i + 1)).isName && ts.kind (i + 2) == .equals then copiedByEquals ts i
  else
    let clause := ImportClause.read ts (i + 1) (ts.pastStatement i)
    match clause.source? with
    | none => []
    | some source =>
      ts.source source :: (clause.default?.toList ++ clause.whole?.toList).map ts.value ++
        bothNames (Specifier.values ts clause.specifiers)

@[simp] theorem oneLine_requireCall {source : String} :
    OneLine (requireCall source) ↔ OneLine source := by
  simp [requireCall, OneLine]

theorem oneLine_declare (hword : OneLine goal.declarator) {name value : String} :
    OneLine (declare goal name value) ↔ OneLine name ∧ OneLine value := by
  simp +decide [declare, hword]

/-- Taking names off a module object copies them, and what stands for the object. -/
theorem oneLine_destructure (hword : OneLine goal.declarator) {names : List (String × String)}
    {module : String} (hnames : names ≠ []) :
    OneLine (destructure goal names module) ↔
      OneLine module ∧ ∀ n ∈ names, OneLine n.1 ∧ OneLine n.2 := by
  have hcomma : OneLine ", " := by decide
  unfold destructure
  split
  · have hfield (n : String × String) :
        OneLine (if n.1 = n.2 then n.1 else n.1 ++ ": " ++ n.2) ↔ OneLine n.1 ∧ OneLine n.2 := by
      split
      · rename_i heq
        rw [← heq, and_self]
      · simp +decide
    simp +decide only [oneLine_declare hword, oneLine_append, oneLine_intercalate hcomma,
      List.forall_mem_map, hfield, true_and, and_comm]
  · -- here the module object is copied once for each name
    have hbinding (n : String × String) : OneLine (n.2 ++ " = " ++ module ++ "." ++ n.1) ↔
        OneLine module ∧ OneLine n.1 ∧ OneLine n.2 := by
      simp +decide [and_comm, and_left_comm]
    simp +decide only [oneLine_append, oneLine_intercalate hcomma, List.forall_mem_map, hbinding,
      hword, true_and, and_true]
    obtain ⟨name, hname⟩ := List.exists_mem_of_ne_nil names hnames
    exact ⟨fun h => ⟨(h name hname).1, fun n hn => (h n hn).2⟩, fun h n hn => ⟨h.1, h.2 n hn⟩⟩

theorem oneLine_requireStatements (hword : OneLine goal.declarator) {clause : ImportClause}
    {source : Nat} {temporary : String} (htemporary : OneLine temporary) :
    OneLine (requireStatements goal ts clause source temporary).1 ↔
      OneLine (ts.source source) ∧ (∀ k ∈ clause.default?, OneLine (ts.value k)) ∧
        (∀ k ∈ clause.whole?, OneLine (ts.value k)) ∧
        ∀ n ∈ Specifier.values ts clause.specifiers, OneLine n.1 ∧ OneLine n.2 := by
  have hspace : OneLine " " := by decide
  have hdefault : OneLine ".default" := by decide
  unfold requireStatements
  simp only
  generalize Specifier.values ts clause.specifiers = names
  generalize clause.default? = default?
  generalize clause.whole? = whole?
  split
  · simp +decide
  · simp +decide [oneLine_declare hword, and_comm]
  · simp +decide [oneLine_declare hword, and_comm]
  · rename_i hnone _ _
    split
    · -- the names are taken off the call itself
      rename_i hlist
      simp only [Bool.and_eq_true, Option.isNone_iff_eq_none] at hlist
      obtain ⟨⟨rfl, rfl⟩, _⟩ := hlist
      rw [oneLine_destructure hword (hnone rfl rfl), oneLine_requireCall]
      simp
    · -- the module object has a generated name, off which everything else is taken
      have hnames : (∀ s ∈ if names.isEmpty then [] else [destructure goal names temporary],
          OneLine s) ↔ ∀ n ∈ names, OneLine n.1 ∧ OneLine n.2 := by
        cases names with
        | nil => simp
        | cons name names =>
          simp [oneLine_destructure hword (List.cons_ne_nil name names), htemporary]
      rw [oneLine_intercalate hspace, List.forall_mem_append, List.forall_mem_append,
        List.forall_mem_append, hnames]
      simp [oneLine_declare hword, htemporary, hdefault, and_assoc]

/-! ## Declarations -/

theorem noBreaks_importEquals (hgoal : goal.commonJs = true) (hword : OneLine goal.declarator)
    (stop : Nat) :
    NoBreaks (importEquals goal ts i stop) ↔ ∀ s ∈ copiedByEquals ts i, OneLine s := by
  unfold importEquals copiedByEquals
  simp only [hgoal, Bool.true_and]
  split <;> simp [oneLine_declare hword, hword]

/-- A generated name that is used up is not text. -/
theorem noBreaks_useTemporary {used : Bool} {changes : List Change} :
    NoBreaks ((if used then [.useTemporary] else []) ++ changes) ↔ NoBreaks changes := by
  cases used <;> simp

theorem noBreaks_importDeclaration (hgoal : goal.commonJs = true) (hword : OneLine goal.declarator)
    (temporaries : Nat) :
    NoBreaks (importDeclaration goal ts temporaries i).changes ↔
      ∀ s ∈ copiedByImport ts i, OneLine s := by
  unfold importDeclaration copiedByImport
  simp only
  split
  · simp
  · split
    · exact noBreaks_importEquals hgoal hword _
    · generalize ImportClause.read ts (i + 1) (ts.pastStatement i) = clause
      rw [hgoal]
      cases hsource : clause.source? with
      | none => simp
      | some source =>
        rw [List.forall_mem_append, List.forall_mem_cons, forall_bothNames]
        refine noBreaks_useTemporary.trans ?_
        simp [oneLine_requireStatements hword (oneLine_temporaryName _ _), or_imp, forall_and,
          and_assoc]

/-! ## Exports -/

/-- What is copied from an export whose assignment stands behind token `close?`: its name. -/
def copiedBehind (ts : TokenStream) (name : Nat) (close? : Option Nat) : List String :=
  if close?.isSome then [ts.value name] else []

/-- The end and the name of the function or class whose words begin at `k`. -/
def closeAndName? (ts : TokenStream) (k : Nat) : Option (Option Nat × Nat) :=
  match functionWord? ts k with
  | some word => some (functionBodyClose? ts (word + 1), functionName ts word)
  | none => (classWord? ts k).map fun word => (classClose? ts word, word + 1)

/-- What is copied from the default export at `i`: the name of a function or class with a body. -/
def copiedByDefault (ts : TokenStream) (i : Nat) : List String :=
  match closeAndName? ts (i + 2) with
  | some (some _, name) =>
    if (ts.kind name).isName && ts.kind name != .kwImplements then [ts.value name] else []
  | _ => []

/-- What is copied from the export list at `i`, whose statement ends at `stop`: the literal that
names its source, and both names of its entries. -/
def copiedByList (ts : TokenStream) (i stop : Nat) : List String :=
  let close := (ts.matching? (i + 1)).getD stop
  (if ImportClause.isFromClause ts (close + 1) then [ts.source (close + 2)] else []) ++
    bothNames (Specifier.values ts (Specifier.list ts (i + 2) close))

/-- The first string literal behind the word `export` at `i` and before `stop`. -/
def literalBefore? (ts : TokenStream) (i stop : Nat) : Option Nat :=
  ((List.range (stop - (i + 1))).map (i + 1 + ·)).find? fun k => ts.kind k == .stringLiteral

/-- What is copied from the export of everything at `i`, whose statement ends at `stop`: the literal
that names its source, and the name that it is given. -/
def copiedByStar (ts : TokenStream) (i stop : Nat) : List String :=
  match literalBefore? ts i stop with
  | none => []
  | some source =>
    ts.source source :: if ts.kind (i + 2) = .kwAs then [ts.value (i + 3)] else []

/-- What is copied from the export at `i` of something that has code. -/
def copiedByValue (ts : TokenStream) (i : Nat) : List String :=
  let next := i + 1
  match ts.kind next with
  | .kwConst | .kwLet | .kwVar => (Binding.ofStatement (ts.drop next)).map Binding.name
  | .kwFunction | .kwAsync =>
    let k := (functionWord? ts next).getD next
    copiedBehind ts (functionName ts k) (functionBodyClose? ts (k + 1))
  | .kwClass | .kwAbstract =>
    let k := if ts.kind next = .kwAbstract then next + 1 else next
    copiedBehind ts (k + 1) (classClose? ts k)
  | .kwDefault => copiedByDefault ts i
  | .lbrace => copiedByList ts i (ts.pastStatement i)
  | .star => copiedByStar ts i (ts.pastStatement i)
  | _ => []

/-- What is copied from the export declaration at `i`: nothing if it has no code. -/
def copiedByExport (ts : TokenStream) (i : Nat) : List String :=
  if ((typeExportEnd? ts i).or ((functionWord? ts (i + 1)).bind (overloadEnd? ts))).isSome then []
  else copiedByValue ts i

theorem oneLine_exportAs {name value : String} :
    OneLine (exportAs name value) ↔ OneLine name ∧ OneLine value := by
  simp +decide [exportAs]

theorem noBreaks_exportBehind (i name : Nat) (close? : Option Nat) :
    NoBreaks (exportBehind ts i name close?) ↔ ∀ s ∈ copiedBehind ts name close?, OneLine s := by
  cases close? <;> simp +decide [exportBehind, copiedBehind, oneLine_exportAs]

theorem noBreaks_exportDefault (i : Nat) :
    NoBreaks (exportDefault ts i) ↔ ∀ s ∈ copiedByDefault ts i, OneLine s := by
  have hassigned : NoBreaks [.replace i (i + 2) "exports.default ="] := by simp +decide
  unfold exportDefault copiedByDefault
  change NoBreaks (match closeAndName? ts (i + 2) with
    | some (some close, name) => _
    | _ => _) ↔ _
  generalize closeAndName? ts (i + 2) = named
  rcases named with _ | ⟨_ | close, name⟩
  · simpa using hassigned
  · simpa using hassigned
  · simp only
    split
    · simp +decide [oneLine_exportAs]
    · simpa using hassigned

/-- Assignments for some pairs of names copy both names of each. -/
theorem oneLine_exports {names : List (String × String)} {value : String → String}
    (hvalue : ∀ s, OneLine (value s) ↔ OneLine s) :
    (∀ s ∈ names.map fun n => exportAs n.2 (value n.1), OneLine s) ↔
      ∀ s ∈ bothNames names, OneLine s := by
  simp only [List.forall_mem_map, oneLine_exportAs, hvalue, forall_bothNames, and_comm]

theorem oneLine_exportListStatements (hword : OneLine goal.declarator)
    {names : List (String × String)} {source? : Option Nat} {temporary : String}
    (htemporary : OneLine temporary) :
    OneLine (exportListStatements goal ts names source? temporary).1 ↔
      (∀ k ∈ source?, OneLine (ts.source k)) ∧ ∀ s ∈ bothNames names, OneLine s := by
  have hspace : OneLine " " := by decide
  cases source? with
  | none =>
    simp only [exportListStatements, oneLine_intercalate hspace]
    refine (oneLine_exports fun s => Iff.rfl).trans ?_
    simp
  | some source =>
    cases names with
    | nil => simp +decide [exportListStatements]
    | cons name names =>
      have hmember (s : String) : OneLine (temporary ++ "." ++ s) ↔ OneLine s := by
        simp +decide [htemporary]
      simp only [exportListStatements, oneLine_intercalate hspace]
      rw [List.forall_mem_cons, oneLine_declare hword, oneLine_requireCall,
        oneLine_exports hmember, and_iff_right htemporary]
      simp

theorem noBreaks_exportList (hword : OneLine goal.declarator) (temporaries i stop : Nat) :
    NoBreaks (exportList goal ts temporaries i stop) ↔
      ∀ s ∈ copiedByList ts i stop, OneLine s := by
  unfold exportList copiedByList
  simp only
  refine noBreaks_useTemporary.trans (noBreaks_replace.trans ?_)
  rw [oneLine_exportListStatements hword (oneLine_temporaryName _ _), List.forall_mem_append]
  split <;> simp

theorem oneLine_exportAll {module : String} (h : OneLine module) : OneLine (exportAll module) := by
  delta exportAll
  simp only [oneLine_append]
  exact ⟨⟨⟨⟨⟨by decide, h⟩, by decide +kernel⟩, by decide +kernel⟩, h⟩, by decide⟩

theorem noBreaks_exportStar (hword : OneLine goal.declarator) (temporaries i stop : Nat) :
    NoBreaks (exportStar goal ts temporaries i stop) ↔
      ∀ s ∈ copiedByStar ts i stop, OneLine s := by
  unfold exportStar copiedByStar
  change NoBreaks (match literalBefore? ts i stop with
    | none => _
    | some source => _) ↔ _
  generalize literalBefore? ts i stop = source?
  cases source? with
  | none => simp
  | some source =>
    simp only
    split
    · simp [oneLine_exportAs, and_comm]
    · simp +decide [oneLine_declare hword, oneLine_exportAll]

theorem noBreaks_exportCommonJs (hword : OneLine goal.declarator) (temporaries i : Nat) :
    NoBreaks (exportCommonJs goal ts temporaries i).changes ↔
      ∀ s ∈ copiedByValue ts i, OneLine s := by
  have hvariables (stop : Nat) (names : List String) :
      NoBreaks [.erase i (i + 1),
        .insertAfter stop (String.join (names.map fun name => " " ++ exportAs name name))] ↔
        ∀ s ∈ names, OneLine s := by
    simp +decide [oneLine_exportAs]
  unfold exportCommonJs copiedByValue
  simp only
  cases ts.kind (i + 1) with
  | kwConst => exact hvariables _ _
  | kwLet => exact hvariables _ _
  | kwVar => exact hvariables _ _
  | kwFunction => exact noBreaks_exportBehind _ _ _
  | kwAsync => exact noBreaks_exportBehind _ _ _
  | kwClass => exact noBreaks_exportBehind _ _ _
  | kwAbstract => exact noBreaks_exportBehind _ _ _
  | kwDefault => exact noBreaks_exportDefault i
  | equals => simp +decide
  | lbrace => exact noBreaks_exportList hword _ _ _
  | star => exact noBreaks_exportStar hword _ _ _
  | _ => simp

theorem noBreaks_exportDeclaration (hgoal : goal.commonJs = true) (hword : OneLine goal.declarator)
    (temporaries : Nat) :
    NoBreaks (exportDeclaration goal ts temporaries i).changes ↔
      ∀ s ∈ copiedByExport ts i, OneLine s := by
  unfold exportDeclaration copiedByExport
  simp only
  split
  · rename_i stop herased
    simp [herased]
  · rename_i herased
    rw [hgoal, herased]
    exact noBreaks_exportCommonJs hword _ _

/-! ## Visits -/

/-- **What is copied into the place of the declaration at `i`.** -/
def copied (ts : TokenStream) (i : Nat) : List String :=
  if beginsImport ts i then copiedByImport ts i
  else if beginsExport ts i then copiedByExport ts i
  else []

/-- **A visit brings in line breaks exactly if it copies some.** -/
theorem noBreaks_visit_iff (hgoal : goal.commonJs = true) (hword : OneLine goal.declarator) :
    NoBreaks (visit goal ts d i).changes ↔ ∀ s ∈ copied ts i, OneLine s := by
  unfold copied
  split
  · rename_i himport
    rw [visit_of_beginsImport himport]
    exact noBreaks_importDeclaration hgoal hword _
  · rename_i himport
    split
    · rename_i hexport
      rw [visit_of_beginsExport hexport]
      exact noBreaks_exportDeclaration hgoal hword _
    · rename_i hexport
      have herasing : Erasing (visit goal ts d i).changes :=
        erasing_visit (Bool.eq_false_iff.mpr himport) (Bool.eq_false_iff.mpr hexport)
      simp [herasing.noBreaks]

end TypeScriptEngine.Emit
