import TypeScriptEngine.Proofs.Path.Relative
import TypeScriptEngine.Proofs.SourceMap.Printed
import TypeScriptEngine.Service.Builtin

/-! # The source in an emitted map

A map names its source as it is seen from the directory of the code.  If the project and the output
directory are absolute, so is the place that the code is written to (`isAbsolute_outputPath`), and the
directory of it (`isAbsolute_parent?`), wherever the one lies from the other.  So the source in the map
leads from there back to the file that was emitted (`emitted_source_leads_back`).
-/

namespace TypeScriptEngine

namespace Path

open Segment

/-! ## Absolute paths -/

/-- A path of names stays absolute with another extension. -/
theorem isAbsolute_withExtension {names : List String} (h : ∀ name ∈ names, IsName name)
    (extension : String) : ((ofNames names).withExtension extension).isAbsolute = true := by
  have habsolute := isAbsolute_ofNames h
  rcases List.eq_nil_or_concat names with rfl | ⟨init, last, rfl⟩
  · have hname : (ofNames []).fileName? = none := by decide
    rw [withExtension, hname]
    exact habsolute
  · rw [List.concat_eq_append] at h habsolute ⊢
    have hinit := fun name hname => h name (List.mem_append_left _ hname)
    have hlast := h last (List.mem_append_right _ (List.mem_singleton_self _))
    have hname : (ofNames (init ++ [last])).fileName? = some last := by
      rw [fileName?, segments_ofNames h, List.map_append, ← List.cons_append, List.map_singleton,
        List.getLast?_concat]
      rfl
    have hshorter : 0 < (ofNames (init ++ [last])).text.toList.length - last.length := by
      rw [toList_ofNames_concat hinit hlast, List.length_append, List.length_cons,
        String.length_toList]
      omega
    obtain ⟨cs, hcs, -⟩ := exists_partsOf habsolute
    rw [withExtension, hname]
    simp only [headLength_of_isAbsolute habsolute, trimEnd_ofNames h]
    rw [isAbsolute, String.toList_append, String.toList_append, String.toList_ofList,
      List.append_assoc, List.append_assoc, List.head?_append, List.head?_take,
      if_neg (Nat.ne_of_gt hshorter), hcs]
    rfl

end Path

/-- The place that code is written to is absolute if the directories are. -/
theorem CompilerOptions.isAbsolute_outputPath {options : CompilerOptions} {project : Path}
    (hproject : project.isAbsolute = true)
    (houtDir : ∀ directory ∈ options.outDir, directory.isAbsolute = true) (input : Path) :
    (options.outputPath input project).isAbsolute = true := by
  have hroot : (options.outDir.getD project).isAbsolute = true := by
    cases hdirectory : options.outDir with
    | none => exact hproject
    | some directory => exact houtDir directory hdirectory
  obtain ⟨names, hnames, hnormal⟩ := Path.exists_ofNames
    (Path.isAbsolute_join hroot (Path.relativeTo project input.normalize))
  rw [outputPath, hnormal]
  split
  · exact Path.isAbsolute_ofNames hnames
  · exact Path.isAbsolute_withExtension hnames _

namespace Builtin

/-- What is emitted for a file that is no declaration file is made from its scan. -/
theorem run_emit_of_scan? {host : HostView} {path : Path} {cache cache' : ServiceCache}
    {scan : CachedScan} (hscan : (scan? host path).run cache = (some scan, cache'))
    (hsource : path.isDeclaration = false) :
    ((emit host path).run cache).1 = ⟨outputsOf host path (codeOf host.options scan), false⟩ := by
  unfold emit
  rw [hsource, if_neg (by decide), StateT.run_bind, hscan]
  rfl

/-- A file that is known and no declaration file is emitted, whatever the service remembers. -/
theorem exists_run_emit {host : HostView} {path : Path} {file : TrackedFile}
    (hget : host.files.get? path = some file) (hsource : path.isDeclaration = false)
    (cache : ServiceCache) :
    ∃ code, ((emit host path).run cache).1 = ⟨outputsOf host path code, false⟩ := by
  obtain ⟨scan, cache', hscan⟩ : ∃ scan cache',
      (scan? host path).run cache = (some scan, cache') := by
    unfold scan?
    rw [hget]
    simp only [StateT.run]
    split
    · exact ⟨_, _, rfl⟩
    · exact ⟨_, _, rfl⟩
  exact ⟨codeOf host.options scan, run_emit_of_scan? hscan hsource⟩

/-- With source maps on, the code stands in front of its map. -/
theorem exists_outputsOf {host : HostView} (hmaps : host.options.sourceMap = true) (path : Path)
    (code : List Char) :
    ∃ text, outputsOf host path code =
      [⟨host.options.outputPath path host.currentDir, text⟩,
        mapFile (host.options.outputPath path host.currentDir) path code] := by
  unfold outputsOf
  rw [if_pos hmaps]
  exact ⟨_, rfl⟩

/-- The map of some code names a single source, which leads back from the directory of the code. -/
theorem exists_source_mapFile {output path : Path} (houtput : output.isAbsolute = true)
    (hpath : path.isAbsolute = true) (code : List Char) :
    ∃ map source, SourceMap.parse? (mapFile output path code).text = some map ∧
      map.sources = [source] ∧
      ((output.parent?.getD ⟨"/"⟩).join ⟨source⟩).normalize = path.normalize := by
  have hdirectory : (output.parent?.getD ⟨"/"⟩).isAbsolute = true := by
    cases hparent : output.parent? with
    | none => rfl
    | some directory => exact Path.isAbsolute_parent? houtput hparent
  refine ⟨_, _, SourceMap.parse?_print (by decide : 3 < 2 ^ 32), rfl, ?_⟩
  exact Path.normalize_join_relativeTo hdirectory hpath

/-- **What a relative path leads to, and what the source in an emitted map leads to.**  The path from
one absolute path to another, joined to the first, leads to the second.  If the project, the output
directory and a file are absolute and source maps are asked for, then the code of the file comes with
a map that names a single source; joined to the directory of the code it leads back to the file,
wherever the output directory lies. -/
theorem emitted_source_leads_back :
    (∀ base target : Path, base.isAbsolute = true → target.isAbsolute = true →
      (base.join (Path.relativeTo base target)).normalize = target.normalize) ∧
    ∀ (host : HostView) (path : Path) (cache : ServiceCache),
      host.currentDir.isAbsolute = true →
      (∀ directory ∈ host.options.outDir, directory.isAbsolute = true) →
      path.isAbsolute = true → host.options.sourceMap = true →
      host.files.contains path = true → path.isDeclaration = false →
      ∃ (output : Path) (code : String) (mapped : OutputFile) (map : SourceMap) (source : String),
        ((emit host path).run cache).1 = ⟨[⟨output, code⟩, mapped], false⟩ ∧
        SourceMap.parse? mapped.text = some map ∧ map.sources = [source] ∧
        ((output.parent?.getD ⟨"/"⟩).join ⟨source⟩).normalize = path.normalize := by
  refine ⟨fun _ _ => Path.normalize_join_relativeTo, ?_⟩
  intro host path cache hproject houtDir hpath hmaps hfile hsource
  obtain ⟨file, hget⟩ := Option.isSome_iff_exists.mp hfile
  obtain ⟨code, hemit⟩ := exists_run_emit hget hsource cache
  obtain ⟨map, source, hmap, hsources, hback⟩ := exists_source_mapFile
    (CompilerOptions.isAbsolute_outputPath hproject houtDir path) hpath code
  obtain ⟨text, houtputs⟩ := exists_outputsOf hmaps path code
  rw [houtputs] at hemit
  exact ⟨_, text, _, map, source, hemit, hmap, hsources, hback⟩

/-- What a service sees of a project with an output directory inside its sources, and of a file that
lies outside of both. -/
def scatteredHost : HostView where
  files := FileStore.empty.upsert ⟨"/lib/../shared/a.ts"⟩ "let a: number;"
  graph := ⟨[], []⟩
  options := { sourceMap := true, outDir := some ⟨"/app/./src/out/"⟩ }
  currentDir := ⟨"/app"⟩
  libraries := []

/-- The map of the file leads back to it. -/
theorem emitted_source_leads_back_scattered :
    (Path.join ⟨"/app/src/out"⟩ (Path.relativeTo ⟨"/app/src/out"⟩ ⟨"/shared/a.ts"⟩)).normalize =
      ⟨"/shared/a.ts"⟩ ∧
    ∃ (output : Path) (code : String) (mapped : OutputFile) (map : SourceMap) (source : String),
      ((emit scatteredHost ⟨"/shared/a.ts"⟩).run .empty).1 = ⟨[⟨output, code⟩, mapped], false⟩ ∧
      SourceMap.parse? mapped.text = some map ∧ map.sources = [source] ∧
      ((output.parent?.getD ⟨"/"⟩).join ⟨source⟩).normalize = ⟨"/shared/a.ts"⟩ := by
  have htext : (⟨"/shared/a.ts"⟩ : Path).normalize.text = "/shared/a.ts" := by decide
  have hnormal : (⟨"/shared/a.ts"⟩ : Path).normalize = ⟨"/shared/a.ts"⟩ := congrArg Path.mk htext
  obtain ⟨hpaths, hmaps⟩ := emitted_source_leads_back
  have hback := hpaths ⟨"/app/src/out"⟩ ⟨"/shared/a.ts"⟩ rfl rfl
  have hmap := hmaps scatteredHost ⟨"/shared/a.ts"⟩ .empty rfl (by decide) rfl rfl
    (by decide) (by decide)
  rw [hnormal] at hback hmap
  exact ⟨hback, hmap⟩

end Builtin

end TypeScriptEngine
