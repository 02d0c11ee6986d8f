import TypeScriptEngine.Resolution.Manifest

/-!
# Resolving modules

Which file a specifier means.  A path is tried with the extensions of sources first, so that a
source goes before the code that is emitted beside it.  A bare name is that of a package, looked for
in the directories `node_modules` from the importing file upwards, and then among the packages that
hold declarations only.
-/

namespace TypeScriptEngine

/-- The head of the paths that stand for built-in modules, for which there is no file. -/
def builtinScheme : String := "node:"

namespace Resolution

/-- The extensions that are tried, in order. -/
def extensions : List String := ["ts", "tsx", "d.ts", "js", "jsx", "json"]

/-- A path with one more extension. -/
def withSuffix (path : Path) (extension : String) : Path := ⟨path.text ++ "." ++ extension⟩

/-- The files that a path may mean: with an extension, as it is, and as a directory with an
index. -/
def candidates (path : Path) : List Path :=
  let path := path.normalize
  extensions.map (withSuffix path) ++ [path] ++
    extensions.map (withSuffix (path.join ⟨"index"⟩))

/-- The file that a path means. -/
def probe? (disk : Disk) (path : Path) : Option Path := (candidates path).find? disk.isFile

/-- The name of a source, given that of the code which is emitted for it. -/
def sourceStem? (name : String) : Option String :=
  if name.endsWith ".js" then some (String.ofList (name.toList.take (name.length - 3)))
  else if name.endsWith ".jsx" then some (String.ofList (name.toList.take (name.length - 4)))
  else none

/-- The source of a path that names emitted code. -/
def probeSource? (disk : Disk) (path : Path) : Option Path := do
  let stem ← sourceStem? (← path.fileName?)
  let base := (((path.parent?).getD ⟨""⟩).join ⟨stem⟩).normalize
  (["ts", "tsx", "d.ts"].map (withSuffix base)).find? disk.isFile

/-- The names of the built-in modules. -/
def builtinNames : List String :=
  ["fs", "path", "http", "https", "os", "process", "events", "url", "crypto", "util", "stream",
    "buffer", "child_process", "net", "tls", "dns", "querystring", "assert", "zlib", "readline",
    "worker_threads"]

/-- The name of a built-in module, with or without the scheme. -/
def builtinName? (specifier : String) : Option String :=
  if specifier.startsWith builtinScheme then
    some (String.ofList (specifier.toList.drop builtinScheme.length))
  else if builtinNames.contains (String.ofList (specifier.toList.takeWhile (· != '/'))) then
    some specifier
  else none

/-- Whether a specifier is a path. -/
def isPath (specifier : String) : Bool :=
  specifier.startsWith "./" || specifier.startsWith "../" || specifier == "." ||
    specifier == ".." || (⟨specifier⟩ : Path).isAbsolute

/-! ## Packages -/

/-- The name of a package, and the path inside it. -/
structure PackageSpecifier where
  package : String
  inner : Option String
deriving DecidableEq, Repr

/-- The characters before the first slash, and those behind it. -/
def cutAtSlash (cs : List Char) : List Char × Option (List Char) :=
  let name := cs.takeWhile (· != '/')
  (name, if name.length < cs.length then some (cs.drop (name.length + 1)) else none)

/-- Reads a specifier.  The name of a package in a scope has one slash. -/
def PackageSpecifier.ofText (specifier : String) : PackageSpecifier :=
  let cs := specifier.toList
  let (first, rest) := cutAtSlash cs
  match specifier.startsWith "@", rest with
  | true, some rest =>
    let (second, inner) := cutAtSlash rest
    ⟨String.ofList (first ++ '/' :: second), inner.map String.ofList⟩
  | _, rest => ⟨String.ofList first, rest.map String.ofList⟩

/-- The package with the declarations of another one. -/
def typesPackage? (package : String) : Option String :=
  if package.startsWith "@types/" then none
  else
    let mangled := match package.toList with
      | '@' :: cs =>
        let (scope, name) := cutAtSlash cs
        scope ++ name.elim [] ("__".toList ++ ·)
      | cs => cs
    some ("@types/" ++ String.ofList mangled)

/-- The file of a package that a specifier means. -/
def packageEntry? (disk : Disk) (directory : Path) (inner : Option String) :
    Except ResolveError (Option Path) :=
  match inner with
  | some inner => .ok (probe? disk (directory.join ⟨inner⟩))
  | none => do
    let manifest := directory.join ⟨"package.json"⟩
    let entries ← if disk.isFile manifest then (Manifest.read disk manifest).map Manifest.entries
      else pure []
    return (entries ++ ["index"]).findSome? fun entry => probe? disk (directory.join ⟨entry⟩)

/-- The first of some directories that holds a package with the file that is asked for. -/
def firstPackage? (disk : Disk) (inner : Option String) :
    List Path → Except ResolveError (Option Path)
  | [] => .ok none
  | directory :: directories => do
    if disk.isDirectory directory then
      match ← packageEntry? disk directory inner with
      | some file => return some file
      | none => firstPackage? disk inner directories
    else firstPackage? disk inner directories

/-- The nearest directory with a package manifest. -/
def projectRoot? (disk : Disk) (base : Path) : Option Path :=
  base.ancestors.find? fun dir => disk.isFile (dir.join ⟨"package.json"⟩)

end Resolution

/-- How specifiers are resolved. -/
structure ModuleResolver where
  /-- The directory above which packages are not looked for. -/
  projectRoot : Option Path
deriving Repr

namespace ModuleResolver

open Resolution

/-- Packages are looked for up to the root of the file tree. -/
def unbounded : ModuleResolver := ⟨none⟩

/-- Packages are looked for up to the project that holds a directory. -/
def ofBase (disk : Disk) (base : Path) : ModuleResolver := ⟨projectRoot? disk base⟩

/-- The directories in which packages are looked for. -/
def searchPath (resolver : ModuleResolver) : List Path → List Path
  | [] => []
  | dir :: dirs =>
    if resolver.projectRoot.any (· == dir) then [dir] else dir :: searchPath resolver dirs

/-- The package directories that a specifier may mean, in order. -/
def packageDirectories (resolver : ModuleResolver) (context : Path) (package : String) :
    List Path :=
  (package :: (typesPackage? package).toList).flatMap fun name =>
    (resolver.searchPath context.ancestors).map fun dir =>
      (dir.join ⟨"node_modules"⟩).join ⟨name⟩

/-- The file of a package. -/
def resolvePackage (resolver : ModuleResolver) (disk : Disk) (context : Path)
    (specifier : String) : Except ResolveError Path := do
  let wanted := PackageSpecifier.ofText specifier
  match ← firstPackage? disk wanted.inner (resolver.packageDirectories context wanted.package) with
  | some file => return file
  | none => throw (.notFound specifier context)

/-- **The file that a specifier means,** seen from a directory. -/
def resolve (resolver : ModuleResolver) (disk : Disk) (context : Path) (specifier : String) :
    Except ResolveError Path :=
  match builtinName? specifier with
  | some name => .ok ⟨builtinScheme ++ name⟩
  | none =>
    if isPath specifier then
      let target := context.join ⟨specifier⟩
      match (probe? disk target).or (probeSource? disk target) with
      | some file => .ok file
      | none => .error (.notFound specifier context)
    else resolver.resolvePackage disk context specifier

end ModuleResolver

end TypeScriptEngine
