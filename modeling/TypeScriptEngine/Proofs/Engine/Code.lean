import TypeScriptEngine.Proofs.Emit.Lines
import TypeScriptEngine.Proofs.Engine.Invalidation
import TypeScriptEngine.Proofs.Engine.Tracking
import TypeScriptEngine.Proofs.Path.Extension
import TypeScriptEngine.Proofs.SourceMap.Comment
import TypeScriptEngine.Proofs.SourceMap.Source

/-! # The code of a build with source maps

A build with source maps takes the code of the emitter and its map, takes the comment off the code
that names the map, and puts the text of the host into the map (`compile_code`).  The map has one
segment for each line of the emitter's code.  The code has these lines too, unless one of them begins
like the comment or the name of the map holds a line break.
-/

namespace TypeScriptEngine

/-! ## Names of files -/

namespace Path

/-- The file name of a path that something was put behind. -/
theorem fileName?_append (p : Path) {suffix : String} (h : '/' ∉ suffix.toList)
    (hlength : 2 < suffix.toList.length) :
    ∃ stem, '/' ∉ stem.toList ∧ fileName? ⟨p.text ++ suffix⟩ = some (stem ++ suffix) := by
  obtain ⟨parts, part, hpart, hsplit⟩ := Text.splitOn_append_last p.text.toList h
  refine ⟨String.ofList part, by rwa [String.toList_ofList], ?_⟩
  -- a part of that length is no dot
  have hsegment : Segment.ofPart? (part ++ suffix.toList) =
      some (.name (String.ofList part ++ suffix)) := by
    have hdots : ∀ cs : List Char, cs.length ≤ 2 → part ++ suffix.toList ≠ cs := by
      rintro cs hcs rfl
      rw [List.length_append] at hcs
      omega
    have hone : ¬ (part ++ suffix.toList = [] ∨ part ++ suffix.toList = ['.']) :=
      not_or.mpr ⟨hdots [] (by decide), hdots ['.'] (by decide)⟩
    rw [Segment.ofPart?, if_neg hone, if_neg (hdots _ (by decide)), String.ofList_append,
      String.ofList_toList]
  have hparts : partsOf (p.text ++ suffix).toList =
      parts.filterMap Segment.ofPart? ++ [.name (String.ofList part ++ suffix)] := by
    rw [partsOf, String.toList_append, hsplit, List.filterMap_append, List.filterMap_cons, hsegment]
    rfl
  rw [fileName?, segments, segmentsOf_eq, hparts, ← List.append_assoc, List.getLast?_concat]
  rfl

end Path

namespace Instance

open Builtin SourceMap

variable {allowed : Surroundings → Prop} {env : Surroundings} {i : Instance} {r : CompileRequest}

/-- The name of the map of some code, as the comment has it. -/
def mapName (code : Path) : String := (mapPath code).fileName?.getD ""

theorem mapName_eq (code : Path) : ∃ stem : String, '/' ∉ stem.toList ∧
    mapName code = stem ++ ".map" := by
  obtain ⟨stem, hstem, hname⟩ := Path.fileName?_append code
    (show '/' ∉ ".map".toList by decide) (by decide)
  refine ⟨stem, hstem, ?_⟩
  rw [mapName, mapPath, hname]
  rfl

theorem slash_not_mem_mapName (code : Path) : '/' ∉ (mapName code).toList := by
  obtain ⟨stem, hstem, hname⟩ := mapName_eq code
  rw [hname, String.toList_append, List.mem_append, not_or]
  exact ⟨hstem, by decide⟩

theorem behindBreak_mapName_eq_nil_iff (code : Path) :
    Text.behindBreak (mapName code).toList = [] ↔ '\n' ∉ (mapName code).toList := by
  obtain ⟨stem, _, hname⟩ := mapName_eq code
  refine Text.behindBreak_eq_nil_iff ?_
  have hlast : (stem.toList ++ ".map".toList).getLast? = some 'p' := List.getLast?_append_of_ne_nil _ (by decide)
  rw [hname, String.toList_append, hlast]
  decide

/-! ## The file that is built -/

/-- A new file is stored with the text that it was taken in with. -/
theorem get?_ensure (h : Reachable allowed i) {p : Path} (hp : i.tracks p = false) {text : String}
    (hok : (i.ensure env p text).result = .ok ()) :
    ∃ file, (i.ensure env p text).state.workspace.files.get? p = some file ∧
      file.text = text := by
  obtain ⟨new, htook⟩ := (ensure_takes_in_behind h env hp text).2 hok
  have hw' := (Move.wellKept (moves_ensure i env p text) h.wellKept).files
  refine ⟨SourceText.file ⟨p.normalize, text⟩, hw'.get?_eq_some_iff.mpr ⟨?_, ?_⟩, rfl⟩
  · rw [htook.files]
    exact List.mem_append_right _ (List.mem_cons_self ..)
  · exact Path.normalize_normalize p

/-- A file is stored with the text that it was given. -/
theorem get?_store (i : Instance) (disk : Disk) (p : Path) (text : String) :
    ∃ file, (i.store disk p text).workspace.files.get? p = some file ∧ file.text = text := by
  unfold store
  simp only [workspace_withWorkspace, Workspace.recordTime_files]
  cases hp : i.workspace.files.get? p with
  | none =>
    have hnew : i.workspace.files.contains p = false := by
      rw [FileStore.contains, hp]
      rfl
    refine ⟨FileStore.newFile p text, ?_, rfl⟩
    rw [FileStore.upsert, hnew, if_neg (by decide), FileStore.insertNew_of_not_contains hnew]
    unfold FileStore.get? at hp ⊢
    rw [List.find?_append, hp, Option.none_or]
    exact List.find?_cons_of_pos BEq.rfl
  | some old =>
    refine ⟨FileStore.updated p text old, ?_, ?_⟩
    · rw [FileStore.get?_upsert (Workspace.contains_of_get? hp), hp]
      rfl
    · have hpath : (old.path == p.normalize) = true := by simpa using List.find?_some hp
      unfold FileStore.updated
      rw [if_pos hpath]

/-- **The file that is built is stored with the text of the host.** -/
theorem get?_takeIn (h : Reachable allowed i) (hok : (i.takeIn env r).result = .ok ()) :
    ∃ file, (i.takeIn env r).state.workspace.files.get? r.file = some file ∧
      file.text = r.text := by
  unfold takeIn at hok ⊢
  cases hfile : i.workspace.files.get? r.file with
  | none =>
    rw [hfile] at hok
    have hnew : i.tracks r.file = false := by
      rw [tracks, FileStore.contains, hfile]
      rfl
    exact get?_ensure h hnew hok
  | some file =>
    rw [hfile] at hok
    simp only at hok ⊢
    by_cases htext : file.text = r.text
    · rw [if_pos htext, Outcome.state_andThen_of_ok rfl]
      exact get?_store _ env.disk r.file r.text
    · rw [if_neg htext] at hok ⊢
      cases hrefresh : (i.refresh env r.file r.text).result with
      | error e =>
        rw [Outcome.andThen_of_error hrefresh] at hok
        cases hok
      | ok _ =>
        rw [Outcome.state_andThen_of_ok hrefresh]
        exact get?_store _ env.disk r.file r.text

/-! ## What is emitted for it -/

/-- The code of the emitter for the text of a request. -/
def codeFor (options : CompilerOptions) (r : CompileRequest) : List Char :=
  Emit.program (.of options.module options.target) (Scan.ofText r.text).tokens r.text.toList

/-- A file that is known and no declaration file gets the code of its text. -/
theorem run_emit {host : HostView} {p : Path} {file : TrackedFile}
    (hget : host.files.get? p = some file) (hp : p.isDeclaration = false) :
    ((Builtin.emit host p).run .empty).1 =
      ⟨outputsOf host p (codeOf host.options (freshScan file)), false⟩ := by
  obtain ⟨cache, hscan⟩ : ∃ cache, (scan? host p).run .empty = (some (freshScan file), cache) := by
    unfold scan?
    rw [hget]
    exact ⟨_, rfl⟩
  exact run_emit_of_scan? hscan hp

theorem codeOf_freshScan {host : HostView} {file : TrackedFile} (htext : file.text = r.text) :
    codeOf host.options (freshScan file) = codeFor host.options r := by
  unfold codeOf codeFor freshScan
  simp only [htext]

/-- The service emits the code of the text that is stored. -/
theorem emission_of_stored (hcompiler : i.compiler = builtinCompiler)
    (hstore : i.workspace.files.WellKept) (hsound : Sound i.hostView i.cache)
    (hsource : r.file.isDeclaration = false) {file : TrackedFile}
    (hget : i.workspace.files.get? r.file = some file) (htext : file.text = r.text) :
    (i.ask (i.compiler.service.emit i.hostView r.file)).1 =
      ⟨outputsOf i.hostView r.file (codeFor i.options r), false⟩ := by
  have hsteady : Steady i.hostView (Builtin.emit i.hostView r.file) := steady_emit hstore r.file
  have hfresh : ((Builtin.emit i.hostView r.file).run .empty).1 =
      ⟨outputsOf i.hostView r.file (codeOf i.hostView.options (freshScan file)), false⟩ :=
    run_emit hget hsource
  rw [ask_emit hcompiler, hsteady.eq_fresh hsound, hfresh, codeOf_freshScan htext]
  rfl

/-- Of code and a map beside it, the host gets the code, and the map with it. -/
theorem codeAndMap?_pair {code : OutputFile} {map : OutputFile} (hname : map.name = mapPath code.name)
    {found : String × Option String} (h : codeAndMap? ⟨[code, map], false⟩ = some found) :
    found = (code.text, some map.text) := by
  have hmap : map.name.text.endsWith ".map" = true := by
    rw [hname, mapPath, ← String.endsWith_toSlice, String.Slice.endsWith_string_iff,
      String.copy_toSlice, String.toList_append]
    exact List.suffix_append _ _
  have hjs : map.name.text.endsWith ".js" = false :=
    endsWith_eq_false hmap (by decide) (by decide)
  have hjsx : map.name.text.endsWith ".jsx" = false :=
    endsWith_eq_false hmap (by decide) (by decide)
  have hnamed : ∀ suffix, code.name.text.endsWith suffix = true →
      map.name.text.endsWith (suffix ++ ".map") = true := by
    intro suffix hsuffix
    rw [hname]
    exact endsWith_append hsuffix ".map"
  cases hcode : code.name.text.endsWith ".js" with
  | true =>
    have hcodemap := endsWith_eq_false (a := ".js.map") hcode (by decide) (by decide)
    have hmapjs : map.name.text.endsWith ".js.map" = true := hnamed ".js" hcode
    simp only [codeAndMap?, Emission.find?, List.find?, hcode, hcodemap, hmapjs, Option.some_or,
      Option.map_some, Option.some.injEq] at h
    exact h.symm
  | false =>
    cases hcodex : code.name.text.endsWith ".jsx" with
    | true =>
      have hcodemap := endsWith_eq_false (a := ".js.map") hcodex (by decide) (by decide)
      have hcodemapx := endsWith_eq_false (a := ".jsx.map") hcodex (by decide) (by decide)
      have hmapjsx : map.name.text.endsWith ".jsx.map" = true := hnamed ".jsx" hcodex
      have hmapjs := endsWith_eq_false (a := ".js.map") hmapjsx (by decide) (by decide)
      simp only [codeAndMap?, Emission.find?, List.find?, hcode, hcodex, hjs, hcodemap, hcodemapx,
        hmapjs, hmapjsx, Option.none_or, Option.map_some, Option.some.injEq] at h
      exact h.symm
    | false =>
      simp only [codeAndMap?, Emission.find?, List.find?, hcode, hcodex, hjs, hjsx, Option.none_or,
        Option.map_none] at h
      contradiction

/-- Only declaration files are built without code. -/
theorem exists_of_produced (hsource : r.file.isDeclaration = false) {output : CompileOutput}
    (h : (i.produce r).1 = .ok output) :
    ∃ found, codeAndMap? (i.ask (i.compiler.service.emit i.hostView r.file)).1 = some found ∧
      output.code = finishCode found.1 ∧ output.sourceMap = (finishMap r found.2).1 := by
  unfold produce at h
  simp only at h
  split at h
  · rename_i text map hfound
    obtain rfl := Except.ok.inj h
    exact ⟨(text, map), hfound, rfl, rfl⟩
  · rw [hsource] at h
    contradiction

/-- A map that was printed is given to the host with the text of the host. -/
theorem finishMap_print {map : SourceMap} (h : map.version < 2 ^ 32) :
    (finishMap r (some map.print)).1 = some (map.withSource r.sourceName r.text) := by
  rw [finishMap, parse?_print h]

/-- What a build gives for a file whose text has been taken in. -/
theorem produce_taken (h : Reachable allowed i) (hcompiler : i.compiler = builtinCompiler)
    (hmaps : i.options.sourceMap = true) (hsource : r.file.isDeclaration = false)
    (hok : (i.takeIn env r).result = .ok ()) {output : CompileOutput}
    (hproduced : ((i.takeIn env r).state.produce r).1 = .ok output) :
    output.code = finishCode (String.ofList (codeFor i.options r) ++ ("\n//# sourceMappingURL=" ++
      mapName (i.options.outputPath r.file i.currentDir))) ∧
    ∃ file source, output.sourceMap =
      some ((linePreserving file source (Text.lineBreaks (codeFor i.options r) + 1)).withSource
        r.sourceName r.text) := by
  have hmove : Move env i (i.takeIn env r).state := moves_takeIn i env r
  have hsession := hmove.sameSession
  have hcompiler' : (i.takeIn env r).state.compiler = builtinCompiler :=
    hsession.compiler.trans hcompiler
  have hsound := hmove.remembersSoundly h.wellKept (fun hcompiler => h.sound hcompiler) hcompiler'
  obtain ⟨stored, hget, htext⟩ := get?_takeIn h hok
  obtain ⟨found, hfound, hcode, hmap⟩ := exists_of_produced hsource hproduced
  have houtputs : outputsOf (i.takeIn env r).state.hostView r.file (codeFor i.options r) =
      [⟨i.options.outputPath r.file i.currentDir, String.ofList (codeFor i.options r) ++
          ("\n//# sourceMappingURL=" ++ mapName (i.options.outputPath r.file i.currentDir))⟩,
        mapFile (i.options.outputPath r.file i.currentDir) r.file (codeFor i.options r)] := by
    unfold outputsOf
    simp only [hostView, hsession.options, hsession.currentDir, hmaps, if_true]
    rfl
  rw [emission_of_stored hcompiler' (hmove.wellKept h.wellKept).files hsound hsource hget htext,
    hsession.options, houtputs] at hfound
  rw [codeAndMap?_pair rfl hfound] at hcode hmap
  refine ⟨hcode, _, _, hmap.trans (finishMap_print ?_)⟩
  exact (by decide : 3 < 2 ^ 32)

/-- What a build gives is the finished code of the emitter, and its map. -/
theorem produce_built (h : Reachable allowed i) (hcompiler : i.compiler = builtinCompiler)
    (hmaps : i.options.sourceMap = true) (hsource : r.file.isDeclaration = false)
    (howner : i.owner? r.file = none) {output : CompileOutput}
    (hbuilt : (i.compile env r).result = .ok output) :
    output.code = finishCode (String.ofList (codeFor i.options r) ++ ("\n//# sourceMappingURL=" ++
      mapName (i.options.outputPath r.file i.currentDir))) ∧
    ∃ file source, output.sourceMap =
      some ((linePreserving file source (Text.lineBreaks (codeFor i.options r) + 1)).withSource
        r.sourceName r.text) := by
  have hstart : i.compile env r = (i.takeIn env r).andThen fun i _ =>
      ⟨(i.produce r).2, [], (i.produce r).1⟩ := by
    unfold compile
    rw [howner]
  have hok : (i.takeIn env r).result = .ok () := by
    cases htake : (i.takeIn env r).result with
    | ok _ => rfl
    | error e =>
      rw [hstart, Outcome.andThen_of_error htake] at hbuilt
      contradiction
  have hproduced : ((i.takeIn env r).state.produce r).1 = .ok output := by
    rwa [hstart, Outcome.result_andThen_of_ok hok] at hbuilt
  exact produce_taken h hcompiler hmaps hsource hok hproduced

/-- **The code and the map of a build with source maps.**  The map has one segment for each line of
the emitter's code, from its beginning to the beginning of the source line of its number.  The code
consists of the lines of the emitter's code that do not begin like the comment that names a map, each
with a line feed behind it, and of what the name of the map holds behind a line break.  So it is the
emitter's code with the line break in front of the comment just if no line begins so and there is no
line break in the name. -/
theorem compile_code (h : Reachable allowed i) (hcompiler : i.compiler = builtinCompiler)
    (hmaps : i.options.sourceMap = true) (hsource : r.file.isDeclaration = false)
    (howner : i.owner? r.file = none) {output : CompileOutput}
    (hbuilt : (i.compile env r).result = .ok output) :
    let code := codeFor i.options r
    let name := mapName (i.options.outputPath r.file i.currentDir)
    (∃ map, output.sourceMap = some map ∧ map.sources = [r.sourceName] ∧
      map.sourcesContent = some [some r.text] ∧ SourceMap.decode? map.mappings.toList =
        some ((List.range (Text.lines code).length).map fun n => [sameLine n])) ∧
    output.code.toList = ((codeLines code).map Text.withoutReturn).flatMap (· ++ ['\n']) ++
      unifyLineEnds (Text.behindBreak name.toList) ∧
    (output.code = String.ofList (unifyLineEnds (code ++ ['\n'])) ↔
      (∀ line ∈ Text.lines code, isUrlLine line = false) ∧ '\n' ∉ name.toList) ∧
    ((∀ line ∈ Text.lines code, isUrlLine line = false) → '\n' ∉ name.toList →
      Text.lines output.code.toList = (Text.lines code).map Text.withoutReturn ++ [[]]) := by
  intro code name
  obtain ⟨hcode, file, source, hmap⟩ :=
    produce_built h hcompiler hmaps hsource howner hbuilt
  have hslash : '/' ∉ name.toList := slash_not_mem_mapName _
  have hchars : output.code.toList =
      ((codeLines code).map Text.withoutReturn).flatMap (· ++ ['\n']) ++
        unifyLineEnds (Text.behindBreak name.toList) := by
    rw [hcode, toList_finishCode_comment code hslash]
  refine ⟨⟨_, hmap, rfl, rfl, ?_⟩, hchars, ?_, fun hlines hname => ?_⟩
  · have hcount : (Text.lines code).length = Text.lineBreaks code + 1 :=
      Text.length_splitOn '\n' code
    rw [hcount, withSource, linePreserving, String.toList_ofList]
    exact decode?_lineMappings _
  · rw [hcode, finishCode_comment_eq_iff code hslash, behindBreak_mapName_eq_nil_iff]
  · have hbreaks : ∀ line ∈ (Text.lines code).map Text.withoutReturn, '\n' ∉ line := by
      intro line hline
      obtain ⟨full, hfull, rfl⟩ := List.mem_map.mp hline
      exact fun hmem => Text.not_mem_of_mem_splitOn hfull (Text.mem_of_mem_withoutReturn hmem)
    rw [hchars, codeLines_eq_iff.mpr hlines, (behindBreak_mapName_eq_nil_iff _).mpr hname,
      show unifyLineEnds [] = [] from rfl, List.append_nil]
    exact Text.splitOn_flatMap_append hbreaks

/-! ## A project with source maps -/

/-- A new instance for the small project that is asked for source maps. -/
def mappedStart : Except EngineError Instance :=
  create smallProject.disk ⟨{ sourceMap := some true }, none⟩ builtinCompiler ⟨"/p/a.ts"⟩ ⟨"/p"⟩

/-- A request to build a text in the small project. -/
def mappedRequest (text : String) : CompileRequest := ⟨⟨"/p/a.ts"⟩, text, ⟨"/p"⟩, none⟩

theorem reachable_mappedStart (allowed : Surroundings → Prop) :
    ∃ i, mappedStart = .ok i ∧ Reachable allowed i ∧ i.compiler = builtinCompiler :=
  reachable_of_isOk ((isOk_create_smallProject _ _ rfl).trans (by decide)) allowed

/-- Two lines with a carriage return between them are given out as two lines, with a map for both. -/
theorem compile_code_mappedStart :
    ∃ i output map, mappedStart = .ok i ∧
      (i.compile smallProject (mappedRequest "a = b!;\r\nlet c = 2;")).result =
        .ok output ∧
      output.code = "a = b;\nlet c = 2;\n" ∧ output.sourceMap = some map ∧
      SourceMap.decode? map.mappings.toList = some [[sameLine 0], [sameLine 1]] := by
  obtain ⟨i, hstart, h, hcompiler⟩ := reachable_mappedStart (fun _ => True)
  have hchecks : (mappedStart.toOption.any fun i =>
      let r := mappedRequest "a = b!;\r\nlet c = 2;"
      i.options.sourceMap && (i.owner? r.file).isNone && (i.compile smallProject r).result.isOk &&
        codeFor i.options r == "a = b;\r\nlet c = 2;".toList &&
        mapName (i.options.outputPath r.file i.currentDir) == "a.js.map") = true := by
    decide +kernel
  rw [hstart] at hchecks
  simp only [Except.toOption, Option.any_some, Bool.and_eq_true, beq_iff_eq,
    Option.isNone_iff_eq_none] at hchecks
  obtain ⟨⟨⟨⟨hmaps, howner⟩, hok⟩, hcode⟩, hname⟩ := hchecks
  cases hbuilt : (i.compile smallProject
      (mappedRequest "a = b!;\r\nlet c = 2;")).result with
  | error e =>
    rw [hbuilt] at hok
    cases hok
  | ok output =>
    obtain ⟨⟨map, hmap, _, _, hdecode⟩, _, hiff, _⟩ :=
      compile_code h hcompiler hmaps (by decide +kernel) howner hbuilt
    rw [hcode] at hdecode hiff
    rw [hname] at hiff
    refine ⟨i, output, map, hstart, hbuilt, ?_, hmap, hdecode⟩
    rw [hiff.mpr (by decide +kernel)]
    decide +kernel

/-- A template literal whose second line begins like the comment that names a map. -/
def templateText : String := "let a = `\n//# sourceMappingURL=b\n`;"

/-- **A line of a template literal can be lost.**  The code has the three lines of the text, and the
map leads from three lines, but the host gets the first and the third one only. -/
theorem compile_drops_template_line :
    ∃ i output map, mappedStart = .ok i ∧ i.options.sourceMap = true ∧
      codeFor i.options (mappedRequest templateText) = templateText.toList ∧
      (i.compile smallProject (mappedRequest templateText)).result = .ok output ∧
      output.code = "let a = `\n`;\n" ∧
      output.code ≠ String.ofList
        (unifyLineEnds (codeFor i.options (mappedRequest templateText) ++ ['\n'])) ∧
      output.sourceMap = some map ∧
      SourceMap.decode? map.mappings.toList = some [[sameLine 0], [sameLine 1], [sameLine 2]] := by
  obtain ⟨i, hstart, h, hcompiler⟩ := reachable_mappedStart (fun _ => True)
  have hchecks : (mappedStart.toOption.any fun i =>
      let r := mappedRequest templateText
      i.options.sourceMap && (i.owner? r.file).isNone &&
        codeFor i.options r == templateText.toList &&
        (i.compile smallProject r).result.toOption.any fun output =>
          output.code == "let a = `\n`;\n") = true := by
    decide +kernel
  rw [hstart] at hchecks
  simp only [Except.toOption, Option.any_some, Bool.and_eq_true, beq_iff_eq,
    Option.isNone_iff_eq_none] at hchecks
  obtain ⟨⟨⟨hmaps, howner⟩, hcode⟩, hbuilt⟩ := hchecks
  cases hresult : (i.compile smallProject (mappedRequest templateText)).result with
  | error e =>
    rw [hresult] at hbuilt
    cases hbuilt
  | ok output =>
    rw [hresult] at hbuilt
    have houtput : output.code = "let a = `\n`;\n" := by simpa using hbuilt
    obtain ⟨file, source, hmap⟩ := (produce_built h hcompiler hmaps (by decide +kernel) howner hresult).2
    refine ⟨i, output, _, hstart, hmaps, hcode, hresult, houtput, ?_, hmap, ?_⟩
    · rw [houtput, hcode]
      decide +kernel
    · show SourceMap.decode?
        (String.ofList (lineMappings (Text.lineBreaks (codeFor i.options _) + 1))).toList = _
      rw [hcode]
      decide +kernel

end Instance

end TypeScriptEngine
