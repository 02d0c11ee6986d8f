import TypeScriptEngine.Text.Blank

/-!
# Language levels, module systems and JSX

The three settings of a compilation that are chosen by name.  Names are read without regard to case
and to white space around them.
-/

namespace TypeScriptEngine

/-- A name as it is compared: trimmed, and its ASCII letters in lower case. -/
def foldName (raw : String) : String :=
  String.ofList ((Text.trim raw.toList).map Char.toLower)

/-- The language level of the emitted code, from old to new. -/
inductive ScriptTarget where
  | es3 | es5 | es2015 | es2016 | es2017 | es2018 | es2019 | es2020 | es2021 | es2022 | esNext
deriving DecidableEq, Repr

namespace ScriptTarget

/-- The level of a name. -/
def ofName? (raw : String) : Option ScriptTarget :=
  match foldName raw with
  | "es3" => some es3
  | "es5" => some es5
  | "es6" => some es2015
  | "es2015" => some es2015
  | "es2016" => some es2016
  | "es2017" => some es2017
  | "es2018" => some es2018
  | "es2019" => some es2019
  | "es2020" => some es2020
  | "es2021" => some es2021
  | "es2022" => some es2022
  | "esnext" => some esNext
  | _ => none

/-- Whether the level is below that of 2015, which brought block-scoped declarations, destructuring
and the second part of the standard library. -/
def isLegacy : ScriptTarget → Bool
  | es3 | es5 => true
  | _ => false

end ScriptTarget

/-- The module system of the emitted code. -/
inductive ModuleKind where
  | none | commonJs | amd | umd | system | es2015 | esNext
deriving DecidableEq, Repr

namespace ModuleKind

/-- The module system of a name. -/
def ofName? (raw : String) : Option ModuleKind :=
  match foldName raw with
  | "none" => some none
  | "commonjs" => some commonJs
  | "amd" => some amd
  | "umd" => some umd
  | "system" => some system
  | "es6" => some es2015
  | "es2015" => some es2015
  | "es2020" => some esNext
  | "es2022" => some esNext
  | "esnext" => some esNext
  | _ => Option.none

/-- Whether `import` and `export` statements are kept. -/
def isEsModule : ModuleKind → Bool
  | es2015 | esNext => true
  | _ => false

/-- The name shown to the user. -/
def displayName : ModuleKind → String
  | none => "None"
  | commonJs => "CommonJS"
  | amd => "AMD"
  | umd => "UMD"
  | system => "System"
  | es2015 => "ES2015"
  | esNext => "ESNext"

/-- Whether there is an emitter for the module system. -/
def isSupported : ModuleKind → Bool
  | amd | umd | system => false
  | _ => true

end ModuleKind

/-- What becomes of JSX. -/
inductive JsxMode where
  | preserve | react | reactNative | reactJsx | reactJsxDev
deriving DecidableEq, Repr

/-- The JSX mode of a name. -/
def JsxMode.ofName? (raw : String) : Option JsxMode :=
  match foldName raw with
  | "preserve" => some .preserve
  | "react" => some .react
  | "react-native" => some .reactNative
  | "react-jsx" => some .reactJsx
  | "react-jsxdev" => some .reactJsxDev
  | _ => none

end TypeScriptEngine
