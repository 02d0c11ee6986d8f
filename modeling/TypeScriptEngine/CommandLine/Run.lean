import TypeScriptEngine.CommandLine.Arguments
import TypeScriptEngine.Diagnostic.Excerpt
import TypeScriptEngine.Disk.Change
import TypeScriptEngine.Engine.Registry
import TypeScriptEngine.Json.Printer
import TypeScriptEngine.Options.Record
import TypeScriptEngine.Resolution.Module

/-!
# Running the program

A run takes a file tree and the arguments of a call to what is printed, an exit code, and the tree
behind it.  All files are compiled before anything is written; the first failure of a step ends the
run.
-/

namespace TypeScriptEngine.CommandLine

/-- What a run leaves behind. -/
structure Run where
  disk : Disk
  /-- The exit code; zero is success. -/
  code : Nat
  /-- The text on the standard output. -/
  out : String
  /-- The text on the standard error output. -/
  err : String

namespace Run

/-- A run that has done nothing yet. -/
def start (disk : Disk) : Run := ⟨disk, 0, "", ""⟩

/-- The run after it has printed something. -/
def print (run : Run) (text : String) : Run := { run with out := run.out ++ text }

/-- The run after it has printed a line of errors. -/
def complain (run : Run) (line : String) : Run := { run with err := run.err ++ line ++ "\n" }

/-- The run with the exit code of failures. -/
def failed (run : Run) : Run := { run with code := 1 }

end Run

/-- The path of a working directory. -/
def workingPath (disk : Disk) : Path := ⟨"/" ++ "/".intercalate disk.workingDir⟩

/-- The options of the steps of a call, or what is wrong with them. -/
def loaderOptions (a : Arguments) : Except String LoaderOptions := do
  let options : LoaderOptions ← match a.value? "options" with
    | none => pure {}
    | some text =>
      match (Json.parse? text).bind LoaderOptions.ofJson? with
      | some options => pure options
      | none => throw "invalid --options: not loader options in JSON"
  return { options with
    instanceId := (a.value? "instance").getD options.instanceId
    configFileName := (a.value? "config").getD options.configFileName
    target := (a.value? "target").or options.target
    module := (a.value? "module").or options.module
    sourceMap := if a.has "source-map" then some true else options.sourceMap
    colors := options.colors && !a.has "no-color" }

/-! ## Compiling -/

/-- The result for a file. -/
structure Compiled where
  path : Path
  output : CompileOutput
deriving Repr

/-- Compiles one file after the other, and tells the first failure. -/
def compileAll (env : Surroundings) (settings : BuildSettings) (context : Path) :
    List String → Registry → Except String (List Compiled × Registry)
  | [], registry => .ok ([], registry)
  | file :: files, registry =>
    let path := context.join ⟨file⟩
    match env.disk.read path with
    | .error cause => .error ("Error reading " ++ path.text ++ ": " ++ cause.message)
    | .ok text =>
      let step := registry.compile env settings ⟨path, text, context, some file⟩
      match step.result with
      | .error e => .error ((e.toHostError context).render none)
      | .ok output => do
        let (compiled, registry) ← compileAll env settings context files step.state
        return (⟨path, output⟩ :: compiled, registry)

/-- Compiles files in a working directory, with a resolver for the project around it. -/
def compileIn (disk : Disk) (options : LoaderOptions) (files : List String) :
    Except String (List Compiled × Registry) :=
  let context := workingPath disk
  let resolver := ModuleResolver.ofBase disk context
  compileAll ⟨disk, resolver.resolve disk⟩ ⟨options, none⟩ context files .empty

/-- Reports errors with excerpts of the files that they are in. -/
def reportErrors (run : Run) (errors : List HostError) : Run :=
  errors.foldl (fun run e =>
    let source := e.file.bind fun file => (run.disk.read ⟨file⟩).toOption
    run.complain (e.render source)) run

/-! ## The commands -/

/-- Writes a file, with the error if that fails. -/
def writeFile (disk : Disk) (path : Path) (text : String) : Except String Disk :=
  match disk.write 0 path (some text) with
  | .ok disk => .ok disk
  | .error cause => .error ("Error writing " ++ path.text ++ ": " ++ cause.message)

/-- Makes the directory of a file, with the error if that fails. -/
def makeDirectoryOf (disk : Disk) (path : Path) : Except String Disk :=
  match path.parent? with
  | none => .ok disk
  | some directory =>
    match disk.makeDirectories 0 directory with
    | .ok disk => .ok disk
    | .error cause => .error ("Error creating " ++ directory.text ++ ": " ++ cause.message)

/-- Code that ends with a line that names its map. -/
def withMapComment (code : String) (map : Path) : String :=
  code ++ map.fileName?.elim "" fun name => "\n//# sourceMappingURL=" ++ name

/-- The files that are written for an output: its map before its code. -/
def filesOf (destination : Path) (output : CompileOutput) : List (Path × String) :=
  match output.sourceMap with
  | none => [(destination, output.code)]
  | some map =>
    let mapPath := Instance.mapPath destination
    [(mapPath, map.print), (destination, withMapComment output.code mapPath)]

/-- Writes files one after the other, up to the first that cannot be written. -/
def writeAll : List (Path × String) → Run → Except Run Run
  | [], run => .ok run
  | (path, text) :: files, run =>
    match writeFile run.disk path text with
    | .ok disk => writeAll files { run with disk }
    | .error message => .error (run.complain message).failed

/-- Writes the output for a file to its place. -/
def writeOutput (i : Instance) (compiled : Compiled) (run : Run) : Except Run Run :=
  let destination := i.options.outputPath compiled.path i.currentDir
  match makeDirectoryOf run.disk destination with
  | .ok disk => writeAll (filesOf destination compiled.output) { run with disk }
  | .error message => .error (run.complain message).failed

/-- Reports and writes the outputs one after the other. -/
def buildOutputs (i : Instance) (toStdout : Bool) : List Compiled → Run → Except Run Run
  | [], run => .ok run
  | compiled :: rest, run => do
    let output := compiled.output
    let run := reportErrors run output.errors
    let run := if output.errors.isEmpty then run else run.failed
    let run := output.warnings.foldl (fun run w => run.complain ("warning: " ++ w)) run
    if toStdout then buildOutputs i toStdout rest (run.print output.code)
    else buildOutputs i toStdout rest (← writeOutput i compiled run)

/-- Runs a command on files that compile. -/
def withCompiled (disk : Disk) (a : Arguments)
    (command : Instance → List Compiled → Run → Run) : Run :=
  let run := Run.start disk
  let compiled := do
    let options ← loaderOptions a
    let (compiled, registry) ← compileIn disk options a.operands
    return (compiled, registry.get? options.instanceId)
  match compiled with
  | .error message => (run.complain message).failed
  | .ok (compiled, some i) => command i compiled run
  | .ok (_, none) => run.failed

/-- The command `build`. -/
def build (disk : Disk) (a : Arguments) : Run :=
  withCompiled disk a fun i compiled run =>
    match buildOutputs i (a.has "stdout") compiled run with
    | .ok run => run
    | .error run => run

/-- An error in JSON. -/
def errorJson (e : HostError) : Json :=
  .object [
    ("info", .object [
      ("code", .integer e.facts.code),
      ("severity", .string e.facts.severity.name),
      ("content", .string e.facts.content),
      ("file", .string e.facts.file),
      ("line", .integer e.facts.line),
      ("character", .integer e.facts.character),
      ("context", .string e.facts.context)]),
    ("message", .string e.message),
    ("file", (e.file.map Json.string).getD .null),
    ("location", (e.location.map fun location => Json.object [
      ("line", .integer location.line),
      ("character", .integer location.character)]).getD .null)]

/-- The command `check`. -/
def check (disk : Disk) (a : Arguments) : Run :=
  withCompiled disk a fun _ compiled run =>
    let errors := compiled.flatMap fun c => c.output.errors
    let run :=
      if a.has "json" then run.print ((Json.array (errors.map errorJson)).indented ++ "\n")
      else (reportErrors run errors).print
        (toString errors.length ++ " error(s) in " ++ toString a.operands.length ++ " file(s)\n")
    if errors.isEmpty then run else run.failed

/-- What the graph says about a file. -/
def graphText (graph : DependencyGraph) (path : Path) : String :=
  path.text ++ "\n" ++
    String.join ((graph.dependencies path).map fun edge =>
      "  " ++ edge.specifier ++ " -> " ++ edge.target.text ++ "\n") ++
    "\n" ++ toString (graph.transitiveDependencies path).length ++ " file(s) reachable\n"

/-- A cycle in the graph. -/
def cycleText (graph : DependencyGraph) : String :=
  graph.findCycle?.elim "" fun cycle =>
    "cycle: " ++ " -> ".intercalate (cycle.map Path.text) ++ "\n"

/-- The command `graph`. -/
def graph (disk : Disk) (a : Arguments) : Run :=
  withCompiled disk a fun i compiled run =>
    let graph := i.workspace.graph
    run.print (String.join (compiled.map fun c => graphText graph c.path) ++ cycleText graph)

/-- **Runs the program.** -/
def run (disk : Disk) (arguments : List String) : Run :=
  let start := Run.start disk
  match Call.ofArguments arguments with
  | .run .build a => build disk a
  | .run .check a => check disk a
  | .run .graph a => graph disk a
  | .version => start.print ("tsincr " ++ builtinCompiler.version ++ "\n")
  | .help long => start.print (helpText long)
  | .commandHelp command => start.print command.spec.helpText
  | .helpOnHelp => start.print helpOnHelpText
  | .misuse => { start with code := 2, err := helpText false }

end TypeScriptEngine.CommandLine
