import TypeScriptEngine.Emit.Program

/-! # What only erases

Most of the changes that a visit proposes bring in no text: those for annotations, type parameters
and arguments, modifiers, clauses and signatures.  A list of such changes is `Erasing`.  Only
`import` and `export` declarations are ever rewritten (`removing_visit`, `erasing_visit`), and with
ES modules the only text that comes in is the word that declares the name of an `import x = ...`
(`newText?_of_esModule`).
-/

namespace TypeScriptEngine.Emit

open TokenStream

/-- The text that a change brings in. -/
def Change.newText? : Change → Option String
  | .replace _ _ text => some text
  | .insertAfter _ text => some text
  | .erase .. | .claim .. | .openClassBody _ | .useTemporary => none

/-- No change brings in a text. -/
def Erasing (changes : List Change) : Prop := ∀ c ∈ changes, c.newText? = none

@[simp] theorem erasing_nil : Erasing [] := fun _ h => by contradiction

@[simp] theorem erasing_cons {c : Change} {changes : List Change} :
    Erasing (c :: changes) ↔ c.newText? = none ∧ Erasing changes :=
  List.forall_mem_cons

@[simp] theorem erasing_append {changes changes' : List Change} :
    Erasing (changes ++ changes') ↔ Erasing changes ∧ Erasing changes' :=
  List.forall_mem_append

@[simp] theorem newText?_erase (first stop : Nat) : (Change.erase first stop).newText? = none := rfl

@[simp] theorem newText?_claim (first stop : Nat) : (Change.claim first stop).newText? = none := rfl

@[simp] theorem newText?_openClassBody (i : Nat) : (Change.openClassBody i).newText? = none := rfl

@[simp] theorem newText?_useTemporary : Change.useTemporary.newText? = none := rfl

/-- Whether a change removes tokens. -/
def Change.isErasure : Change → Bool
  | .erase .. => true
  | .replace .. | .insertAfter .. | .claim .. | .openClassBody _ | .useTemporary => false

/-- All changes are erasures. -/
def OnlyErases (changes : List Change) : Prop := ∀ c ∈ changes, c.isErasure = true

@[simp] theorem onlyErases_nil : OnlyErases [] := fun _ h => by contradiction

@[simp] theorem onlyErases_cons {c : Change} {changes : List Change} :
    OnlyErases (c :: changes) ↔ c.isErasure = true ∧ OnlyErases changes :=
  List.forall_mem_cons

@[simp] theorem onlyErases_append {changes changes' : List Change} :
    OnlyErases (changes ++ changes') ↔ OnlyErases changes ∧ OnlyErases changes' :=
  List.forall_mem_append

@[simp] theorem isErasure_erase (first stop : Nat) :
    (Change.erase first stop).isErasure = true := rfl

namespace OnlyErases

theorem of_eq {result : List Change × Nat} {changes : List Change} {stop : Nat}
    (h : OnlyErases result.1) (heq : result = (changes, stop)) : OnlyErases changes := by
  rwa [heq] at h

end OnlyErases

/-- Whether a change removes tokens, or marks a class so that tokens in it are removed. -/
def Change.isRemoval : Change → Bool
  | .erase .. | .openClassBody _ => true
  | .replace .. | .insertAfter .. | .claim .. | .useTemporary => false

/-- All changes remove tokens or mark classes. -/
def Removing (changes : List Change) : Prop := ∀ c ∈ changes, c.isRemoval = true

@[simp] theorem removing_nil : Removing [] := fun _ h => by contradiction

@[simp] theorem removing_cons {c : Change} {changes : List Change} :
    Removing (c :: changes) ↔ c.isRemoval = true ∧ Removing changes :=
  List.forall_mem_cons

@[simp] theorem removing_append {changes changes' : List Change} :
    Removing (changes ++ changes') ↔ Removing changes ∧ Removing changes' :=
  List.forall_mem_append

@[simp] theorem isRemoval_erase (first stop : Nat) :
    (Change.erase first stop).isRemoval = true := rfl

@[simp] theorem isRemoval_openClassBody (i : Nat) :
    (Change.openClassBody i).isRemoval = true := rfl

theorem OnlyErases.removing {changes : List Change} (h : OnlyErases changes) :
    Removing changes := by
  intro c hc
  cases c with
  | erase first stop => rfl
  | _ => exact absurd (h _ hc) Bool.false_ne_true

theorem Removing.erasing {changes : List Change} (h : Removing changes) : Erasing changes := by
  intro c hc
  cases c with
  | erase first stop => rfl
  | openClassBody i => rfl
  | _ => exact absurd (h _ hc) Bool.false_ne_true

variable (ts : TokenStream)

/-! ## Classes -/

theorem onlyErases_extendsClause (k : Nat) : OnlyErases (extendsClause ts k).1 := by
  fun_induction extendsClause ts k <;> simp_all

theorem removing_classHeader (i : Nat) : Removing (classHeader ts i) := by
  unfold classHeader
  extract_lets k
  split
  rename_i parameters past hparameters
  have hparameters : OnlyErases parameters := by
    refine .of_eq ?_ hparameters
    split <;> simp
  split
  rename_i parents stop hparents
  have hparents : OnlyErases parents := by
    refine .of_eq ?_ hparents
    split
    · exact onlyErases_extendsClause ts _
    · exact onlyErases_nil
  split
  · split <;> simp [hparameters.removing, hparents.removing]
  · split <;> simp [hparameters.removing, hparents.removing]

theorem onlyErases_memberModifiers (k : Nat) : OnlyErases (memberModifiers ts k).changes := by
  fun_induction memberModifiers ts k with
  | case1 _ _ _ _ _ ih => exact onlyErases_cons.mpr ⟨rfl, ih⟩
  | case2 _ _ _ _ _ _ ih => exact ih
  | case3 _ _ _ _ _ _ ih => exact ih
  | case4 _ _ _ _ _ _ _ ih => exact ih
  | case5 => exact onlyErases_nil
  | case6 => exact onlyErases_nil

theorem onlyErases_memberType (start k stop : Nat) : OnlyErases (memberType ts start k stop) := by
  unfold memberType
  split
  · simp
  · simp only
    split
    · simp
    · split <;> simp
  · simp only
    split
    · simp
    · split <;> simp
  · simp

theorem onlyErases_classMember (start stop : Nat) : OnlyErases (classMember ts start stop) := by
  have hmodifiers := onlyErases_memberModifiers ts
  have htype := onlyErases_memberType ts
  unfold classMember
  simp only
  split
  · simp [hmodifiers]
  · split
    · exact hmodifiers start
    · split <;> simp [hmodifiers, htype]

theorem onlyErases_classMembers (k close : Nat) : OnlyErases (classMembers ts k close) := by
  have hmember := onlyErases_classMember ts
  fun_induction classMembers ts k close <;> simp_all

theorem onlyErases_classBody (i : Nat) : OnlyErases (classBody ts i) := by
  unfold classBody
  split
  · exact onlyErases_classMembers ts _ _
  · exact onlyErases_nil

/-! ## Parameters and variables -/

theorem onlyErases_parameterModifiers (k : Nat) : OnlyErases (parameterModifiers ts k).1 := by
  fun_induction parameterModifiers ts k <;> simp_all

theorem onlyErases_annotationAt (k stop : Nat) : OnlyErases (annotationAt ts k stop).1 := by
  unfold annotationAt
  split <;> simp

theorem onlyErases_mark (kind : TokenKind) (k : Nat) : OnlyErases (mark ts kind k).1 := by
  unfold mark
  split <;> simp

theorem onlyErases_parameter (k close : Nat) : OnlyErases (parameter ts k close).1 := by
  unfold parameter
  simp [onlyErases_annotationAt, onlyErases_mark]

theorem onlyErases_parameterList (k close : Nat) : OnlyErases (parameterList ts k close) := by
  fun_induction parameterList ts k close with
  | case1 k _ modifiers _ hmodifiers _ past here _ ih =>
    have hmodifiers : OnlyErases modifiers := .of_eq (onlyErases_parameterModifiers ts k) hmodifiers
    simp [here, hmodifiers, ih]
  | case2 k _ modifiers _ hmodifiers _ past here =>
    have hmodifiers : OnlyErases modifiers := .of_eq (onlyErases_parameterModifiers ts k) hmodifiers
    simp [here, hmodifiers]
  | case3 k _ modifiers k' hmodifiers _ changes _ hchanges next _ ih =>
    have hmodifiers : OnlyErases modifiers := .of_eq (onlyErases_parameterModifiers ts k) hmodifiers
    have hchanges : OnlyErases changes := .of_eq (onlyErases_parameter ts k' close) hchanges
    split
    · rename_i hlt
      simp [hmodifiers, hchanges, ih hlt]
    · simp [hmodifiers, hchanges]
  | case4 k _ modifiers k' hmodifiers _ changes _ hchanges =>
    have hmodifiers : OnlyErases modifiers := .of_eq (onlyErases_parameterModifiers ts k) hmodifiers
    have hchanges : OnlyErases changes := .of_eq (onlyErases_parameter ts k' close) hchanges
    simp [hmodifiers, hchanges]
  | case5 => exact onlyErases_nil

theorem onlyErases_parameters (i : Nat) : OnlyErases (parameters ts i) := by
  unfold parameters
  split
  · exact onlyErases_nil
  · refine onlyErases_append.mpr ⟨onlyErases_parameterList ts _ _, ?_⟩
    split <;> simp

theorem onlyErases_declaratorList (k stop : Nat) : OnlyErases (declaratorList ts k stop) := by
  have hdeclarator (k past : Nat) : OnlyErases (if past = k then ([], k) else
      let definite := mark ts .bang past
      let type := annotationAt ts definite.2 stop
      (definite.1 ++ type.1, type.2)).1 := by
    split
    · exact onlyErases_nil
    · exact onlyErases_append.mpr ⟨onlyErases_mark ts _ _, onlyErases_annotationAt ts _ _⟩
  fun_induction declaratorList ts k stop with
  | case1 k _ past changes _ hchanges next _ ih =>
    have hchanges : OnlyErases changes := .of_eq (hdeclarator k past) hchanges
    split
    · rename_i hlt
      exact onlyErases_append.mpr ⟨hchanges, ih hlt⟩
    · exact onlyErases_append.mpr ⟨hchanges, onlyErases_nil⟩
  | case2 k _ past changes _ hchanges => exact .of_eq (hdeclarator k past) hchanges
  | case3 => exact onlyErases_nil

/-! ## Lists of names -/

theorem erasing_eraseTypes (specifiers : List Specifier) :
    Erasing (Specifier.eraseTypes specifiers) := by
  intro c hc
  obtain ⟨s, _, rfl⟩ := List.mem_map.mp hc
  rfl

/-! ## Visits -/

section

variable {ts} {goal : Goal} {d : Draft} {i : Nat}

/-- Whether the word `import` at `i` begins a declaration. -/
def beginsImport (ts : TokenStream) (i : Nat) : Bool :=
  ts.kind i == .kwImport && ts.startsStatement i && depthAt ts i == 0 &&
    ts.kind (i + 1) != .lparen && ts.kind (i + 1) != .dot

/-- Whether the word `export` at `i` begins a declaration. -/
def beginsExport (ts : TokenStream) (i : Nat) : Bool :=
  ts.kind i == .kwExport && ts.startsStatement i && depthAt ts i == 0

theorem visit_of_beginsImport (h : beginsImport ts i = true) :
    visit goal ts d i = importDeclaration goal ts d.temporaries i := by
  simp only [beginsImport, Bool.and_eq_true, beq_iff_eq] at h
  obtain ⟨⟨⟨⟨hkind, hstart⟩, hdepth⟩, hparen⟩, hdot⟩ := h
  simp only [visit, hkind, hstart, hdepth, hparen, hdot]
  rfl

theorem visit_of_beginsExport (h : beginsExport ts i = true) :
    visit goal ts d i = exportDeclaration goal ts d.temporaries i := by
  simp only [beginsExport, Bool.and_eq_true, beq_iff_eq] at h
  obtain ⟨⟨hkind, hstart⟩, hdepth⟩ := h
  simp only [visit, hkind, hstart, hdepth]
  rfl

/-- **Other visits only remove tokens.** -/
theorem removing_visit (himport : beginsImport ts i = false) (hexport : beginsExport ts i = false) :
    Removing (visit goal ts d i).changes := by
  have hpass : Removing (Step.proposing [] i).changes := removing_nil
  have herase (stop : Nat) : Removing (Step.erasing i stop).changes :=
    removing_cons.mpr ⟨rfl, removing_nil⟩
  have hguard (p : Prop) [Decidable p] (stop : Nat) :
      Removing (if p then Step.erasing i stop else Step.proposing [] i).changes := by
    split
    · exact herase stop
    · exact hpass
  unfold visit
  simp only
  cases hkind : ts.kind i with
  | kwImport =>
    simp only [beginsImport, hkind, beq_self_eq_true, Bool.true_and] at himport
    simp only [himport]
    exact hpass
  | kwExport =>
    simp only [beginsExport, hkind, beq_self_eq_true, Bool.true_and] at hexport
    simp only [hexport]
    exact hpass
  | kwInterface => exact hguard _ _
  | kwType => exact hguard _ _
  | kwDeclare => exact hguard _ _
  | kwAbstract => exact hguard _ _
  | kwFunction =>
    cases overloadEnd? ts i with
    | some stop => exact hguard _ _
    | none => exact hpass
  | kwClass => exact removing_classHeader ts i
  | lbrace =>
    simp only
    split
    · exact (onlyErases_classBody ts i).removing
    · exact hpass
  | lparen =>
    simp only
    split
    · exact (onlyErases_parameters ts i).removing
    · exact hpass
  | lt =>
    cases typeArguments? ts i with
    | some stop => exact herase stop
    | none => exact hpass
  | kwVar => exact (onlyErases_declaratorList ts _ _).removing
  | kwLet => exact (onlyErases_declaratorList ts _ _).removing
  | kwConst => exact (onlyErases_declaratorList ts _ _).removing
  | kwAs => exact hguard _ _
  | kwSatisfies => exact hguard _ _
  | bang => exact hguard _ _
  | _ => exact hpass

theorem erasing_visit (himport : beginsImport ts i = false) (hexport : beginsExport ts i = false) :
    Erasing (visit goal ts d i).changes :=
  (removing_visit himport hexport).erasing

/-! ## ES modules -/

/-- An import that gives a name to a module or to a part of a namespace, with an equals sign. -/
structure IsImportEquals (ts : TokenStream) (i : Nat) : Prop where
  word : ts.kind i = .kwImport
  name : (ts.kind (i + 1)).isName = true
  equals : ts.kind (i + 2) = .equals

theorem newText?_importEquals (hgoal : goal.commonJs = false) {stop : Nat} {c : Change}
    (hc : c ∈ importEquals goal ts i stop) :
    c.newText? = none ∨ c = .replace i (i + 1) goal.declarator := by
  simp only [importEquals, hgoal, Bool.false_and] at hc
  rcases List.mem_cons.mp hc with rfl | hc
  · exact .inr rfl
  · obtain rfl := List.mem_singleton.mp hc
    exact .inl rfl

theorem newText?_importDeclaration (hgoal : goal.commonJs = false) (hword : ts.kind i = .kwImport)
    {temporaries : Nat} {c : Change} (hc : c ∈ (importDeclaration goal ts temporaries i).changes) :
    c.newText? = none ∨ IsImportEquals ts i ∧ c = .replace i (i + 1) goal.declarator := by
  unfold importDeclaration at hc
  simp only [hgoal] at hc
  split at hc
  · obtain rfl := List.mem_singleton.mp hc
    exact .inl rfl
  · split at hc
    · rename_i hequals
      obtain ⟨hname, hequals⟩ := Bool.and_eq_true_iff.mp hequals
      exact (newText?_importEquals hgoal hc).imp_right
        fun h => ⟨⟨hword, hname, beq_iff_eq.mp hequals⟩, h⟩
    · have herasing := erasing_append.mpr
        ⟨erasing_eraseTypes (ImportClause.read ts (i + 1) (ts.pastStatement i)).specifiers,
          erasing_cons.mpr ⟨newText?_claim i (ts.pastStatement i), erasing_nil⟩⟩
      exact .inl (herasing c hc)

theorem erasing_exportEsModule (ts : TokenStream) (i : Nat) :
    Erasing (exportEsModule ts i).changes := by
  unfold exportEsModule
  simp only
  split <;> simp [erasing_eraseTypes]

theorem erasing_exportDeclaration (hgoal : goal.commonJs = false) (temporaries i : Nat) :
    Erasing (exportDeclaration goal ts temporaries i).changes := by
  unfold exportDeclaration
  simp only
  split
  · simp
  · rw [hgoal]
    exact erasing_exportEsModule ts i

/-- **With ES modules nothing comes in but the word for a name that is given with an equals sign.** -/
theorem newText?_of_esModule (hgoal : goal.commonJs = false) {c : Change}
    (hc : c ∈ (visit goal ts d i).changes) :
    c.newText? = none ∨ IsImportEquals ts i ∧ c = .replace i (i + 1) goal.declarator := by
  cases himport : beginsImport ts i with
  | true =>
    rw [visit_of_beginsImport himport] at hc
    simp only [beginsImport, Bool.and_eq_true, beq_iff_eq] at himport
    exact newText?_importDeclaration hgoal himport.1.1.1.1 hc
  | false =>
    refine .inl ?_
    cases hexport : beginsExport ts i with
    | true =>
      rw [visit_of_beginsExport hexport] at hc
      exact erasing_exportDeclaration hgoal _ _ c hc
    | false => exact erasing_visit himport hexport c hc

end

end TypeScriptEngine.Emit
