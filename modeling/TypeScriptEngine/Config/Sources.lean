import TypeScriptEngine.Config.Load
import TypeScriptEngine.Glob.Match
import TypeScriptEngine.Path.Set
import TypeScriptEngine.Text.Blank

/-!
# The sources of a project

The files that a configuration lists, and those below its directory that match an including pattern
and no excluding one.  A pattern without wildcards and without extension names a directory, and
means everything below it.
-/

namespace TypeScriptEngine

namespace Config

/-- Whether a file is a source by its extension. -/
def isSource (path : Path) : Bool :=
  match path.extension? with
  | some extension => ["ts", "tsx", "mts", "cts"].contains extension
  | none => false

/-- A text without the slashes at its end. -/
def trimSlashes (cs : List Char) : List Char := (cs.reverse.dropWhile (· == '/')).reverse

/-- Makes a pattern for a directory one for the files below it. -/
def expandDirectory (pattern : List Char) : List Char :=
  if pattern.isEmpty || pattern.any ['*', '?', '[', ']'].contains then pattern
  else
    let directory := trimSlashes pattern
    if directory.isEmpty then "**/*".toList
    else if (⟨String.ofList directory⟩ : Path).extension?.isSome then directory
    else directory ++ "/**/*".toList

/-- The tokens of a pattern; a blank pattern has none. -/
def readPattern (pattern : String) : Except ConfigError (Option (List GlobToken)) :=
  match expandDirectory (Glob.withoutHere (Text.trim pattern.toList)) with
  | [] => .ok none
  | cs =>
    match Glob.ofText (String.ofList cs) with
    | .ok tokens => .ok (some tokens)
    | .error cause => .error (.badPattern pattern cause)

/-- The patterns that are read from texts. -/
def readPatterns (patterns : List String) : Except ConfigError (List (List GlobToken)) := do
  return (← patterns.mapM readPattern).filterMap id

/-- Whether one of several patterns matches a path. -/
def anyMatches (patterns : List (List GlobToken)) (path : Path) : Bool :=
  patterns.any fun tokens => Glob.matchesText false tokens path.slashed

end Config

namespace ProjectConfig

open Config (readPatterns anyMatches isSource)

/-- What is left out if a configuration does not say so: installed packages, and what is written by
the project itself. -/
def standardExcluded (config : ProjectConfig) : List String :=
  ["node_modules", "bower_components", "jspm_packages"] ++
    ((config.options.outDir.bind fun dir => config.directory.below? ⟨dir⟩).map Path.text).toList

/-- The files that the configuration lists. -/
def listedFiles (config : ProjectConfig) : List Path :=
  (config.files.getD []).map fun file => (config.directory.join ⟨file⟩).normalize

/-- **The sources of a project,** in ascending order.  A configuration that lists files and has no
including patterns has no other sources. -/
def sources (config : ProjectConfig) (disk : Disk) : Except ConfigError (List Path) := do
  if config.files.isSome && config.included.isNone then return Path.setOf config.listedFiles
  let included ← readPatterns (config.included.getD ["**/*"])
  let excluded ← readPatterns (config.excluded.getD config.standardExcluded)
  let found := (disk.filesBelow config.directory).filter fun file =>
    isSource file && anyMatches included file && !anyMatches excluded file
  return Path.setOf
    (config.listedFiles ++ found.map fun file => (config.directory.join file).normalize)

end ProjectConfig

/-! ## Referenced projects

A project may build on the output of others.  It takes a file from a referenced project if that
project owns it, that is, if the file is one of its sources.
-/

/-- A project that another one refers to. -/
structure ProjectReference where
  /-- Its configuration file. -/
  config : Path
  directory : Path
  options : CompilerOptions
  /-- Its sources, in ascending order. -/
  sources : List Path
deriving Repr

namespace ProjectReference

/-- Loads a project by its configuration file. -/
def load (disk : Disk) (path : Path) : Except ConfigError ProjectReference := do
  let config ← Config.load disk path
  match CompilerOptions.resolve {} config.options config.directory with
  | .error cause => throw (.malformed config.path (.unknownOption cause))
  | .ok options =>
    return {
      config := config.path
      directory := config.directory
      options
      sources := ← config.sources disk }

/-- Whether a file is a source of the project. -/
def owns (reference : ProjectReference) (file : Path) : Bool :=
  reference.sources.any (· == file.normalize)

/-- Where the project has written the code of a source. -/
def outputOf (reference : ProjectReference) (input : Path) : Path :=
  reference.options.outputPath input reference.directory

end ProjectReference

end TypeScriptEngine
