import TypeScriptEngine.Options.Compiler
import TypeScriptEngine.Proofs.Path.Extension
import TypeScriptEngine.Proofs.Path.Relative

/-! # Where outputs are written

The place of an output is found along the way from the project to the input: as many names of the
output directory are left out at the end as the way goes up, and the names that it goes down follow
(`rerooted`).  Only the extension of the last name is another one (`outputPath_eq`).  So an input below
the project has its output below the output directory, and no other input has the same output unless
it differs in its extension only.  For an input elsewhere the way goes up; its output lies below the
output directory just if the way comes down through the names that were left out, and it may be that of
another input (`outputs_leave_and_collide`).
-/

namespace TypeScriptEngine

open TypeScriptEngine.Path Segment

namespace Path

variable {p q directory : Path} {names : List String}

/-- A path lies below a directory: its normal form goes on behind that of the directory. -/
def IsBelow (p directory : Path) : Prop :=
  ∃ rest, rest ≠ [] ∧ p.normalize.segments = directory.normalize.segments ++ rest

/-- Names that differ in nothing but the extension of the last one. -/
def SameButExtension (as bs : List String) : Prop :=
  as = bs ∨ ∃ before a b, as = before ++ [a] ∧ bs = before ++ [b] ∧ stemOf a = stemOf b

theorem SameButExtension.append {as bs : List String} (h : SameButExtension as bs)
    (front : List String) : SameButExtension (front ++ as) (front ++ bs) := by
  rcases h with rfl | ⟨before, a, b, rfl, rfl, hstem⟩
  · exact Or.inl rfl
  · exact Or.inr ⟨front ++ before, a, b, (List.append_assoc ..).symm, (List.append_assoc ..).symm,
      hstem⟩

/-- What stands before the names does not matter. -/
theorem SameButExtension.of_append {front as bs : List String}
    (h : SameButExtension (front ++ as) (front ++ bs)) : SameButExtension as bs := by
  rcases h with h | ⟨before, a, b, ha, hb, hstem⟩
  · exact Or.inl (List.append_cancel_left h)
  · rcases List.append_eq_append_iff.mp ha with ⟨init, rfl, has⟩ | ⟨rest, rfl, hrest⟩
    · rw [List.append_assoc] at hb
      exact Or.inr ⟨init, a, b, has, List.append_cancel_left hb, hstem⟩
    · rw [List.append_assoc] at hb
      rcases List.singleton_eq_append_iff.mp hrest with ⟨rfl, rfl⟩ | ⟨rfl, rfl⟩
      · exact Or.inr ⟨[], a, b, rfl, List.append_cancel_left hb, hstem⟩
      · -- the name that differs belongs to what stands before
        have hlength := congrArg List.length (List.append_cancel_left hb)
        rw [List.length_append, List.length_singleton, List.length_singleton] at hlength
        exact Or.inl (List.length_eq_zero_iff.mp (by omega)).symm

theorem isBelow_iff (hp : p.isAbsolute = true) (hdirectory : directory.isAbsolute = true) :
    p.IsBelow directory ↔ ∃ rest, rest ≠ [] ∧ p.names = directory.names ++ rest := by
  rw [IsBelow, segments_of_isAbsolute hp, segments_of_isAbsolute hdirectory]
  constructor
  · rintro ⟨rest, hne, he⟩
    have hmap := (List.cons.inj he).2
    obtain ⟨front, back, hnames, hfront, hback⟩ := List.map_eq_append_iff.mp hmap
    refine ⟨back, ?_, ?_⟩
    · rintro rfl
      exact hne hback.symm
    · rw [hnames, List.map_injective_iff.mpr (fun _ _ => Segment.name.inj) hfront]
  · rintro ⟨rest, hne, he⟩
    refine ⟨rest.map .name, by simpa using hne, ?_⟩
    rw [he, List.map_append, List.cons_append]

theorem apart_append (names rest : List String) : apart names (names ++ rest) = ([], rest) := by
  induction names with
  | nil => cases rest <;> rfl
  | cons name names ih => rw [List.cons_append, apart, if_pos rfl, ih]

end Path

namespace CompilerOptions

variable {options : CompilerOptions} {project out input input' : Path} {names : List String}
  {name : String}

/-! ## Emitted names -/

/-- The name of the output of a file. -/
def emittedName (options : CompilerOptions) (name : String) : String :=
  if name.endsWith ".json" then name else stemOf name ++ "." ++ options.outputExtension name

/-- Names of which the last one is that of an output. -/
def emittedNames (options : CompilerOptions) (names : List String) : List String :=
  names.dropLast ++ (names.getLast?.map options.emittedName).toList

theorem emittedNames_concat (options : CompilerOptions) (names : List String) (name : String) :
    options.emittedNames (names ++ [name]) = names ++ [options.emittedName name] := by
  rw [emittedNames, List.dropLast_concat, List.getLast?_concat]
  rfl

theorem outputExtension_cases (options : CompilerOptions) (name : String) :
    options.outputExtension name = "jsx" ∨ options.outputExtension name = "js" := by
  unfold outputExtension
  split
  · exact Or.inl rfl
  · exact Or.inr rfl

theorem isName_emittedName (options : CompilerOptions) (h : IsName name) :
    IsName (options.emittedName name) := by
  unfold emittedName
  split
  · exact h
  · rcases options.outputExtension_cases name with he | he <;> rw [he]
    · exact isName_stemOf_append h (by decide) (by decide)
    · exact isName_stemOf_append h (by decide) (by decide)

theorem isName_emittedNames (options : CompilerOptions) (h : ∀ name ∈ names, IsName name) :
    ∀ name ∈ options.emittedNames names, IsName name := by
  intro name hname
  rcases List.mem_append.mp hname with hname | hname
  · exact h name (List.dropLast_subset _ hname)
  · obtain ⟨last, hlast, rfl⟩ := Option.map_eq_some_iff.mp (Option.mem_toList.mp hname)
    exact options.isName_emittedName (h last (List.mem_of_getLast? hlast))

/-- The name of an output ends with the extension of data or with one of code. -/
theorem emittedName_cases (options : CompilerOptions) (name : String) :
    (options.emittedName name = name ∧ name.endsWith ".json" = true) ∨
      ∃ extension ∈ ["jsx", "js"], options.emittedName name = stemOf name ++ "." ++ extension := by
  unfold emittedName
  split
  · rename_i hjson
    exact Or.inl ⟨rfl, hjson⟩
  · refine Or.inr ⟨options.outputExtension name, ?_, rfl⟩
    rcases options.outputExtension_cases name with he | he <;> rw [he] <;> decide

/-- Two of the extensions of code are the same if a text ends with both. -/
theorem eq_of_code_extensions {s a b : String} (ha : a ∈ ["jsx", "js"]) (hb : b ∈ ["jsx", "js"])
    (hsa : s.endsWith a = true) (hsb : s.endsWith b = true) : a = b := by
  by_contra hne
  have hapart : ∀ a ∈ ["jsx", "js"], ∀ b ∈ ["jsx", "js"], a ≠ b →
      ¬ a.toList <:+ b.toList ∧ ¬ b.toList <:+ a.toList := by decide
  obtain ⟨hab, hba⟩ := hapart a ha b hb hne
  rw [endsWith_eq_false hsb hab hba] at hsa
  contradiction

/-- Code has no extension of data. -/
theorem not_json_of_code_extension {s a : String} (ha : a ∈ ["jsx", "js"])
    (hsa : s.endsWith a = true) : s.endsWith ".json" = false := by
  have hapart : ∀ a ∈ ["jsx", "js"],
      ¬ ".json".toList <:+ a.toList ∧ ¬ a.toList <:+ ".json".toList := by decide
  exact endsWith_eq_false hsa (hapart a ha).1 (hapart a ha).2

/-- **Outputs of one name have inputs of one stem.** -/
theorem stemOf_of_emittedName_eq {name' : String}
    (h : options.emittedName name = options.emittedName name') : stemOf name = stemOf name' := by
  rcases options.emittedName_cases name with ⟨hdata, hjson⟩ | ⟨extension, hcode, he⟩ <;>
    rcases options.emittedName_cases name' with ⟨hdata', hjson'⟩ | ⟨extension', hcode', he'⟩
  · rw [hdata, hdata'] at h
    rw [h]
  · have hends : name.endsWith extension' = true := by
      rw [← hdata, h, he']
      exact endsWith_append_self _ _
    rw [not_json_of_code_extension hcode' hends] at hjson
    exact absurd hjson Bool.false_ne_true
  · have hends : name'.endsWith extension = true := by
      rw [← hdata', ← h, he]
      exact endsWith_append_self _ _
    rw [not_json_of_code_extension hcode hends] at hjson'
    exact absurd hjson' Bool.false_ne_true
  · rw [he, he'] at h
    have hends : (stemOf name ++ "." ++ extension).endsWith extension' = true := by
      rw [h]
      exact endsWith_append_self _ _
    have hends' := endsWith_append_self (stemOf name ++ ".") extension
    rw [eq_of_code_extensions hcode hcode' hends' hends, String.append_left_inj,
      String.append_left_inj] at h
    exact h

/-- Outputs at the same place come from names that are the same but for the extension. -/
theorem sameButExtension_of_emittedNames {names' : List String}
    (h : options.emittedNames names = options.emittedNames names') :
    SameButExtension names names' := by
  rcases List.eq_nil_or_concat names with rfl | ⟨before, a, rfl⟩ <;>
    rcases List.eq_nil_or_concat names' with rfl | ⟨before', b, rfl⟩
  · exact Or.inl rfl
  · rw [List.concat_eq_append, emittedNames_concat] at h
    simp [emittedNames] at h
  · rw [List.concat_eq_append, emittedNames_concat] at h
    simp [emittedNames] at h
  · rw [List.concat_eq_append, List.concat_eq_append, emittedNames_concat,
      emittedNames_concat] at h
    obtain ⟨rfl, hlast⟩ := List.append_inj' h rfl
    refine Or.inr ⟨before, a, b, List.concat_eq_append, List.concat_eq_append, ?_⟩
    exact stemOf_of_emittedName_eq (List.singleton_inj.mp hlast)

/-! ## The place of an output -/

/-- The names that lead to the place of an input under the output directory, on the way from the
project to the input. -/
def rerooted (project out input : Path) : List String :=
  out.names.rdrop (apart project.names input.names).1.length ++
    (apart project.names input.names).2

theorem isName_rerooted (hout : out.isAbsolute = true) (hinput : input.isAbsolute = true) :
    ∀ name ∈ rerooted project out input, IsName name := by
  intro name hname
  rcases List.mem_append.mp hname with hname | hname
  · exact (normalize_eq_ofNames hout).1 name (List.mem_of_mem_take hname)
  · obtain ⟨common, -, hcommon⟩ := exists_common project.names input.names
    exact (normalize_eq_ofNames hinput).1 name (hcommon ▸ List.mem_append_right _ hname)

theorem normalize_join_rerooted (hproject : project.isAbsolute = true)
    (hout : out.isAbsolute = true) (hinput : input.isAbsolute = true) :
    (out.join (relativeTo project input.normalize)).normalize =
      ofNames (rerooted project out input) := by
  obtain ⟨houts, hout'⟩ := normalize_eq_ofNames hout
  have hrelative := segments_relativeTo hproject ((isAbsolute_normalize input).trans hinput)
  rw [names_normalize] at hrelative
  refine normalize_of_foldl_step ?_
  rw [foldl_step_join, hrelative, foldl_step_of_normalize houts hout', List.foldl_append,
    foldl_step_ups, foldl_step_names, rerooted, List.map_append, List.reverse_append,
    List.append_assoc]

/-- **The place of an output** has the names on the way to its input, up to the extension. -/
theorem outputPath_eq (hdir : options.outDir = some out) (hproject : project.isAbsolute = true)
    (hout : out.isAbsolute = true) (hinput : input.isAbsolute = true) :
    options.outputPath input project = ofNames (options.emittedNames (rerooted project out input)) := by
  have hnames : ∀ name ∈ rerooted project out input, IsName name := isName_rerooted hout hinput
  rw [outputPath, hdir]
  simp only [Option.getD_some, normalize_join_rerooted hproject hout hinput]
  generalize rerooted project out input = place at hnames ⊢
  rcases List.eq_nil_or_concat place with rfl | ⟨before, last, rfl⟩
  · have hroot : (ofNames []).text.endsWith ".json" = false := by decide
    rw [hroot, if_neg (by decide), withExtension_ofNames_nil]
    rfl
  · rw [List.concat_eq_append] at hnames ⊢
    rw [emittedNames_concat, emittedName, outputExtension,
      endsWith_ofNames_concat hnames (by decide), endsWith_ofNames_concat hnames (by decide),
      ← outputExtension]
    split
    · rfl
    · rcases options.outputExtension_cases last with he | he <;> rw [he]
      · exact withExtension_ofNames_concat hnames (by decide) (by decide)
      · exact withExtension_ofNames_concat hnames (by decide) (by decide)

theorem names_outputPath (hdir : options.outDir = some out) (hproject : project.isAbsolute = true)
    (hout : out.isAbsolute = true) (hinput : input.isAbsolute = true) :
    (options.outputPath input project).names =
        options.emittedNames (rerooted project out input) ∧
      (options.outputPath input project).isAbsolute = true := by
  have hplace : ∀ name ∈ rerooted project out input, IsName name := isName_rerooted hout hinput
  have hnames := options.isName_emittedNames hplace
  rw [outputPath_eq hdir hproject hout hinput]
  exact ⟨names_ofNames hnames, isAbsolute_ofNames hnames⟩

/-- Names in front of others are not touched. -/
theorem emittedNames_append (options : CompilerOptions) (before : List String) {rest : List String}
    (h : rest ≠ []) : options.emittedNames (before ++ rest) = before ++ options.emittedNames rest := by
  rcases List.eq_nil_or_concat rest with rfl | ⟨init, last, rfl⟩
  · contradiction
  · rw [List.concat_eq_append, ← List.append_assoc, emittedNames_concat, emittedNames_concat,
      List.append_assoc]

/-- The names of an output go on behind a directory just if those of its input do. -/
theorem exists_emittedNames_append_iff {directory : List String} :
    (∃ rest, rest ≠ [] ∧ options.emittedNames names = directory ++ rest) ↔
      ∃ rest, rest ≠ [] ∧ names = directory ++ rest := by
  constructor
  · rintro ⟨rest, hne, he⟩
    rcases List.eq_nil_or_concat names with rfl | ⟨before, name, rfl⟩
    · exact absurd (List.append_eq_nil_iff.mp he.symm).2 hne
    · rcases List.eq_nil_or_concat rest with rfl | ⟨init, last, rfl⟩
      · contradiction
      · rw [List.concat_eq_append, emittedNames_concat, List.concat_eq_append,
          ← List.append_assoc] at he
        obtain ⟨rfl, -⟩ := List.append_inj' he rfl
        refine ⟨init ++ [name], List.append_ne_nil_of_right_ne_nil _ (List.cons_ne_nil _ _), ?_⟩
        rw [List.concat_eq_append, List.append_assoc]
  · rintro ⟨rest, hne, rfl⟩
    refine ⟨options.emittedNames rest, ?_, options.emittedNames_append directory hne⟩
    rcases List.eq_nil_or_concat rest with rfl | ⟨init, last, rfl⟩
    · contradiction
    · rw [List.concat_eq_append, emittedNames_concat]
      exact List.append_ne_nil_of_right_ne_nil _ (List.cons_ne_nil _ _)

/-- **An output lies below the output directory just if the way to its input comes down through the
names that were left out.** -/
theorem isBelow_outputPath_iff (hdir : options.outDir = some out)
    (hproject : project.isAbsolute = true) (hout : out.isAbsolute = true)
    (hinput : input.isAbsolute = true) :
    (options.outputPath input project).IsBelow out ↔
      ∃ rest, rest ≠ [] ∧ (apart project.names input.names).2 =
        out.names.rtake (apart project.names input.names).1.length ++ rest := by
  obtain ⟨hnames, habsolute⟩ := names_outputPath hdir hproject hout hinput
  have hsplit : out.names = out.names.rdrop (apart project.names input.names).1.length ++
      out.names.rtake (apart project.names input.names).1.length :=
    (List.take_append_drop _ _).symm
  rw [isBelow_iff habsolute hout, hnames, exists_emittedNames_append_iff]
  refine exists_congr fun rest => and_congr_right fun _ => ?_
  constructor
  · intro he
    rw [hsplit, rerooted, List.append_assoc] at he
    exact List.append_cancel_left he
  · intro he
    conv_rhs => rw [hsplit]
    rw [rerooted, he, List.append_assoc]

/-- Where the way turns downwards at the same directory, inputs are the same but for the extension if
what lies behind is. -/
theorem sameButExtension_of_rerooted
    (h : SameButExtension (rerooted project out input) (rerooted project out input'))
    (hsame : (apart project.names input.names).1 = (apart project.names input'.names).1) :
    SameButExtension input.names input'.names := by
  obtain ⟨common, habove, hbelow⟩ := exists_common project.names input.names
  obtain ⟨common', habove', hbelow'⟩ := exists_common project.names input'.names
  rw [rerooted, rerooted, ← hsame] at h
  rw [← hsame] at habove'
  obtain rfl := List.append_cancel_right (habove.symm.trans habove')
  rw [hbelow, hbelow']
  exact h.of_append.append common

/-- **Where outputs are written.**  With an absolute output directory, the output of an input has the
names on the way from the project to the input, up to the extension of the last one.  An input below
the project has its output below the output directory.  For any other input the way goes up first; its
output lies below the output directory just if the way comes down through as many of its last names.
Inputs with the same output have the same way under the output directory but for the extension; where
the way turns downwards at the same directory, as it does for all inputs below the project, the inputs
themselves are the same but for the extension. -/
theorem outputs_rerooted (hdir : options.outDir = some out) (hproject : project.isAbsolute = true)
    (hout : out.isAbsolute = true) :
    ∀ input, input.isAbsolute = true →
      options.outputPath input project =
          ofNames (options.emittedNames (rerooted project out input)) ∧
      (input.IsBelow project → (options.outputPath input project).IsBelow out) ∧
      ((options.outputPath input project).IsBelow out ↔
        ∃ rest, rest ≠ [] ∧ (apart project.names input.names).2 =
          out.names.rtake (apart project.names input.names).1.length ++ rest) ∧
      ∀ input', input'.isAbsolute = true →
        options.outputPath input project = options.outputPath input' project →
        SameButExtension (rerooted project out input) (rerooted project out input') ∧
        ((apart project.names input.names).1 = (apart project.names input'.names).1 →
          SameButExtension input.names input'.names) ∧
        (input.IsBelow project → input'.IsBelow project →
          SameButExtension input.names input'.names) := by
  intro input hinput
  have hbelow {input : Path} (hinput : input.isAbsolute = true) (h : input.IsBelow project) :
      ∃ rest, rest ≠ [] ∧ apart project.names input.names = ([], rest) := by
    obtain ⟨rest, hne, he⟩ := (isBelow_iff hinput hproject).mp h
    exact ⟨rest, hne, he ▸ apart_append project.names rest⟩
  refine ⟨outputPath_eq hdir hproject hout hinput, fun h => ?_,
    isBelow_outputPath_iff hdir hproject hout hinput, fun input' hinput' he => ?_⟩
  · obtain ⟨rest, hne, hapart⟩ := hbelow hinput h
    rw [isBelow_outputPath_iff hdir hproject hout hinput, hapart]
    exact ⟨rest, hne, by simp⟩
  · obtain ⟨hnames, -⟩ := names_outputPath hdir hproject hout hinput
    obtain ⟨hnames', -⟩ := names_outputPath hdir hproject hout hinput'
    rw [he, hnames'] at hnames
    have hsame := sameButExtension_of_emittedNames hnames.symm
    refine ⟨hsame, sameButExtension_of_rerooted hsame, fun h h' => ?_⟩
    obtain ⟨rest, -, hapart⟩ := hbelow hinput h
    obtain ⟨rest', -, hapart'⟩ := hbelow hinput' h'
    exact sameButExtension_of_rerooted hsame (by rw [hapart, hapart'])

/-- Options with an output directory inside the project `/p/q`. -/
def innerOutput : CompilerOptions := { outDir := some ⟨"/p/q/out"⟩ }

/-- An input of the project has its output in the output directory, and an input beside it has not. -/
theorem outputs_rerooted_siblings :
    innerOutput.outputPath ⟨"/p/q/src/a.tsx"⟩ ⟨"/p/q"⟩ = ofNames ["p", "q", "out", "src", "a.js"] ∧
    (innerOutput.outputPath ⟨"/p/q/src/a.tsx"⟩ ⟨"/p/q"⟩).IsBelow ⟨"/p/q/out"⟩ ∧
    ¬ (innerOutput.outputPath ⟨"/p/shared/b.ts"⟩ ⟨"/p/q"⟩).IsBelow ⟨"/p/q/out"⟩ := by
  have hplaces := @outputs_rerooted innerOutput ⟨"/p/q"⟩ ⟨"/p/q/out"⟩ rfl rfl rfl
  obtain ⟨hplace, hbelow, -, -⟩ := hplaces ⟨"/p/q/src/a.tsx"⟩ rfl
  obtain ⟨-, -, hbeside, -⟩ := hplaces ⟨"/p/shared/b.ts"⟩ rfl
  have hnames : innerOutput.emittedNames (rerooted ⟨"/p/q"⟩ ⟨"/p/q/out"⟩ ⟨"/p/q/src/a.tsx"⟩) =
      ["p", "q", "out", "src", "a.js"] := by decide +kernel
  have hapart : apart (Path.names ⟨"/p/q"⟩) (Path.names ⟨"/p/shared/b.ts"⟩) =
      (["q"], ["shared", "b.ts"]) := by decide +kernel
  have hlast : (Path.names ⟨"/p/q/out"⟩).rtake 1 = ["out"] := by decide +kernel
  refine ⟨hnames ▸ hplace, hbelow ⟨[.name "src", .name "a.tsx"], by decide, by decide +kernel⟩, ?_⟩
  rw [hbeside, hapart]
  rintro ⟨rest, -, he⟩
  rw [List.length_singleton, hlast, List.singleton_append] at he
  exact absurd (List.cons.inj he).1 (by decide)

/-- **Outputs leave the output directory, and fall on each other.**  An input outside of the project
has its output elsewhere; and an input that lies beside the project, in a directory with the name of
the output directory, has the output of an input of the project. -/
theorem outputs_leave_and_collide :
    (innerOutput.outputPath ⟨"/x/a.ts"⟩ ⟨"/p/q"⟩).normalize.startsWith
        (⟨"/p/q/out"⟩ : Path).normalize = false ∧
    innerOutput.outputPath ⟨"/p/out/a.ts"⟩ ⟨"/p/q"⟩ =
      innerOutput.outputPath ⟨"/p/q/a.ts"⟩ ⟨"/p/q"⟩ ∧
    ¬ SameButExtension (Path.names ⟨"/p/out/a.ts"⟩) (Path.names ⟨"/p/q/a.ts"⟩) := by
  have htext : (innerOutput.outputPath ⟨"/p/out/a.ts"⟩ ⟨"/p/q"⟩).text =
      (innerOutput.outputPath ⟨"/p/q/a.ts"⟩ ⟨"/p/q"⟩).text := by decide +kernel
  have hnames : Path.names ⟨"/p/out/a.ts"⟩ = ["p", "out", "a.ts"] := by decide +kernel
  have hnames' : Path.names ⟨"/p/q/a.ts"⟩ = ["p", "q", "a.ts"] := by decide +kernel
  refine ⟨by decide +kernel, congrArg Path.mk htext, ?_⟩
  rw [hnames, hnames']
  rintro (h | ⟨before, a, b, ha, hb, -⟩)
  · exact absurd h (by decide)
  · have hfront : ["p", "out"] = before := by simpa using congrArg List.dropLast ha
    have hfront' : ["p", "q"] = before := by simpa using congrArg List.dropLast hb
    exact absurd (hfront.trans hfront'.symm) (by decide)

end CompilerOptions

end TypeScriptEngine
