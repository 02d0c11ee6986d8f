import TypeScriptEngine.Options.Loader
import TypeScriptEngine.Path.Basic

/-!
# Arguments

The commands of the program with their options, and how the arguments of a call are read.  Options
and operands may come in any order; behind two hyphens there are operands only.  No option may be
given twice.
-/

namespace TypeScriptEngine.CommandLine

/-- An option of a command. -/
structure OptionSpec where
  name : String
  /-- What its value is called, if it takes one. -/
  value : Option String
  help : String
deriving DecidableEq, Repr

/-- A command. -/
structure CommandSpec where
  name : String
  help : String
  /-- What its operands are called. -/
  operand : String
  operandHelp : String
  /-- Whether it takes more than one operand. -/
  many : Bool
  options : List OptionSpec
deriving DecidableEq, Repr

/-- The options of all commands. -/
def sharedOptions : List OptionSpec :=
  [⟨"options", some "JSON", "Loader options as JSON, e.g. '\x7b\"ignoreDiagnostics\":[2451]\x7d'"⟩,
    ⟨"instance", some "INSTANCE", "Instance name"⟩,
    ⟨"config", some "FILE", "Config file name or path"⟩,
    ⟨"target", some "TARGET", "ECMAScript target (es5, es2015, ..., esnext)"⟩,
    ⟨"module", some "MODULE", "Module kind (commonjs, es2015, esnext, ...)"⟩,
    ⟨"source-map", none, "Emit source maps"⟩,
    ⟨"no-color", none, "Disable colored output"⟩]

/-- Compiles files and writes their code. -/
def buildSpec : CommandSpec where
  name := "build"
  help := "Compile files and write their JavaScript"
  operand := "FILES"
  operandHelp := "Input TypeScript files"
  many := true
  options := ⟨"stdout", none, "Print the JavaScript instead of writing it"⟩ :: sharedOptions

/-- Reports diagnostics. -/
def checkSpec : CommandSpec where
  name := "check"
  help := "Report diagnostics without writing output"
  operand := "FILES"
  operandHelp := "Input TypeScript files"
  many := true
  options := ⟨"json", none, "Print errors as JSON"⟩ :: sharedOptions

/-- Shows what a file depends on. -/
def graphSpec : CommandSpec where
  name := "graph"
  help := "Show the files a file depends on"
  operand := "FILE"
  operandHelp := "Input TypeScript file"
  many := false
  options := sharedOptions

/-- The commands. -/
inductive Command where
  | build | check | graph
deriving DecidableEq, Repr

/-- How a command is called. -/
def Command.spec : Command → CommandSpec
  | build => buildSpec
  | check => checkSpec
  | graph => graphSpec

/-- All commands. -/
def Command.all : List Command := [build, check, graph]

/-- The command of a name. -/
def Command.ofName? (name : String) : Option Command :=
  all.find? fun command => command.spec.name == name

/-! ## Reading -/

/-- Why arguments name nothing to be done. -/
inductive Stop where
  /-- Help is asked for. -/
  | help
  /-- The arguments cannot be understood. -/
  | misuse
deriving DecidableEq, Repr

/-- The arguments of a command. -/
structure Arguments where
  /-- The options that are given, with their values. -/
  options : List (String × String)
  operands : List String
deriving DecidableEq, Repr

namespace Arguments

/-- The value of an option. -/
def value? (a : Arguments) (name : String) : Option String :=
  (a.options.find? fun option => option.1 == name).map Prod.snd

/-- Whether an option is given. -/
def has (a : Arguments) (name : String) : Bool := (a.value? name).isSome

/-- One more option, unless it is there already. -/
def addOption (a : Arguments) (name value : String) : Except Stop Arguments :=
  if a.has name then .error .misuse
  else .ok { a with options := a.options ++ [(name, value)] }

/-- One more operand, unless there must not be another one. -/
def addOperand (a : Arguments) (spec : CommandSpec) (operand : String) : Except Stop Arguments :=
  if operand.isEmpty || (!spec.many && !a.operands.isEmpty) then .error .misuse
  else .ok { a with operands := a.operands ++ [operand] }

end Arguments

/-- Whether an argument looks like an option. -/
def looksLikeOption (argument : String) : Bool := argument.startsWith "-" && argument != "-"

/-- A long option cut into its name and the value behind an equals sign. -/
def cutOption (argument : String) : String × Option String :=
  let cs := argument.toList.drop 2
  let name := cs.takeWhile (· != '=')
  (String.ofList name,
    if name.length < cs.length then some (String.ofList (cs.drop (name.length + 1))) else none)

/-- Reads the arguments of a command, after those read before. -/
def CommandSpec.read (spec : CommandSpec) (a : Arguments) : List String → Except Stop Arguments
  | [] => .ok a
  | argument :: rest =>
    if argument = "--" then rest.foldlM (fun a operand => a.addOperand spec operand) a
    else if !looksLikeOption argument then do
      spec.read (← a.addOperand spec argument) rest
    else if argument.startsWith "-h" || argument = "--help" then .error .help
    else if !argument.startsWith "--" then .error .misuse
    else
      let (name, value?) := cutOption argument
      match spec.options.find? fun option => option.name == name, value?, rest with
      | none, _, _ => .error .misuse
      | some ⟨_, none, _⟩, none, rest => do spec.read (← a.addOption name "") rest
      | some ⟨_, none, _⟩, some _, _ => .error .misuse
      | some ⟨_, some _, _⟩, some value, rest => do spec.read (← a.addOption name value) rest
      | some ⟨_, some _, _⟩, none, [] => .error .misuse
      | some ⟨_, some _, _⟩, none, value :: rest =>
        if looksLikeOption value then .error .misuse
        else do spec.read (← a.addOption name value) rest

/-- What a call of the program asks for. -/
inductive Call where
  | run (command : Command) (arguments : Arguments)
  | version
  /-- Help on the program, in a long or a short form. -/
  | help (long : Bool)
  | commandHelp (command : Command)
  /-- Help on the command that gives help. -/
  | helpOnHelp
  | misuse
deriving Repr

/-- Reads the arguments of a call. -/
def Call.ofArguments : List String → Call
  | [] => .misuse
  | first :: rest =>
    match Command.ofName? first with
    | some command =>
      match command.spec.read ⟨[], []⟩ rest with
      | .ok arguments => if arguments.operands.isEmpty then .misuse else .run command arguments
      | .error .help => .commandHelp command
      | .error .misuse => .misuse
    | none =>
      if first = "--help" then .help true
      else if first.startsWith "-h" then .help false
      else if first = "--version" || first.startsWith "-V" then .version
      else if first = "help" then
        match rest with
        | [] => .help true
        | [name] =>
          if name = "help" then .helpOnHelp
          else (Command.ofName? name).elim .misuse .commandHelp
        | _ => .misuse
      else .misuse

/-! ## Help -/

/-- Two columns of text, the first one as wide as its widest entry. -/
def twoColumns (rows : List (String × String)) : String :=
  let width := rows.foldl (fun width row => max width row.1.length) 0
  String.join (rows.map fun row =>
    "  " ++ row.1 ++ String.ofList (List.replicate (width + 2 - row.1.length) ' ') ++ row.2 ++ "\n")

/-- How an option is written. -/
def OptionSpec.usage (option : OptionSpec) : String :=
  "    --" ++ option.name ++ option.value.elim "" fun value => " <" ++ value ++ ">"

/-- How the operands of a command are written. -/
def CommandSpec.operandUsage (spec : CommandSpec) : String :=
  "<" ++ spec.operand ++ ">" ++ (if spec.many then "..." else "")

/-- The help on a command. -/
def CommandSpec.helpText (spec : CommandSpec) : String :=
  spec.help ++ "\n\nUsage: tsincr " ++ spec.name ++ " [OPTIONS] " ++ spec.operandUsage ++
    "\n\nArguments:\n" ++ twoColumns [(spec.operandUsage, spec.operandHelp)] ++ "\nOptions:\n" ++
    twoColumns (spec.options.map (fun option => (option.usage, option.help)) ++
      [("-h, --help", "Print help")])

/-- What the command that gives help is there for. -/
def helpPurpose : String := "Print this message or the help of the given subcommand(s)"

/-- The help on the command that gives help. -/
def helpOnHelpText : String :=
  helpPurpose ++ "\n\nUsage: tsincr help [COMMAND]...\n\nArguments:\n" ++
    twoColumns [("[COMMAND]...", "Print help for the subcommand(s)")]

/-- The help on the program. -/
def helpText (long : Bool) : String :=
  (if long then
    "Compiles TypeScript files one build step at a time, tracking\n" ++
      "the files they depend on and reporting diagnostics per file."
  else "Incremental TypeScript compilation engine") ++
    "\n\nUsage: tsincr <COMMAND>\n\nCommands:\n" ++
    twoColumns (Command.all.map (fun command => (command.spec.name, command.spec.help)) ++
      [("help", helpPurpose)]) ++
    "\nOptions:\n" ++
    if long then
      "  -h, --help\n          Print help (see a summary with '-h')\n\n" ++
        "  -V, --version\n          Print version\n"
    else
      twoColumns [("-h, --help", "Print help (see more with '--help')"),
        ("-V, --version", "Print version")]

end TypeScriptEngine.CommandLine
