import TypeScriptEngine.Glob.Pattern

/-!
# Matching paths

A pattern matches the bytes of a whole path.  Each token leads from a text to the texts that can be
left of it; a sequence matches if nothing can be left.  Wildcards may be kept from matching slashes;
classes and the recursive tokens are not.

Some patterns ask for a file of a certain name or extension.  The segment `..` is the name of no
file, so that these patterns do not match a path that ends in it, whatever their tokens say.
-/

namespace TypeScriptEngine.Glob

/-- The bytes of a text. -/
def bytesOf (text : String) : List UInt8 := text.toUTF8.toList

/-- The bytes of a character. -/
def bytesOfChar (c : Char) : List UInt8 := bytesOf (String.ofList [c])

/-- The byte of a slash. -/
def slash : UInt8 := 47

/-- What can be left behind a run of bytes with a property. -/
def afterRun (p : UInt8 → Bool) : List UInt8 → List (List UInt8)
  | [] => [[]]
  | b :: bs => (b :: bs) :: if p b then afterRun p bs else []

/-- What is left behind a slash. -/
def afterSlash : List UInt8 → List (List UInt8)
  | b :: bs => if b = slash then [bs] else []
  | [] => []

/-- What can be left behind any bytes and a slash. -/
def afterAnySlash (bs : List UInt8) : List (List UInt8) :=
  (afterRun (fun _ => true) bs).flatMap afterSlash

/-- Whether a byte is in a range of characters.  Of a character of several bytes each byte counts;
the range goes from the last byte of its first character to the first byte of its last one. -/
def inRange (b : UInt8) (range : Char × Char) : Bool :=
  let first := bytesOfChar range.1
  let last := bytesOfChar range.2
  first.contains b || last.contains b ||
    (range.1 != range.2 && first.getLastD 0 ≤ b && b ≤ last.headD 0)

mutual

/-- Whether a sequence of tokens says nothing at all: it holds only groups without branches that say
something. -/
def isVoid : List GlobToken → Bool
  | [] => true
  | t :: tokens => isVoidToken t && isVoid tokens

/-- Whether a token is a group without branches that say something. -/
def isVoidToken : GlobToken → Bool
  | .alternatives branches => areVoid branches
  | _ => false

/-- Whether no branch says anything. -/
def areVoid : List (List GlobToken) → Bool
  | [] => true
  | branch :: branches => isVoid branch && areVoid branches

end

/-- Whether a wildcard matches a byte. -/
def wild (literalSlash : Bool) (b : UInt8) : Bool := !(literalSlash && b == slash)

mutual

/-- What can be left behind a token. -/
def afterToken (literalSlash : Bool) : GlobToken → List UInt8 → List (List UInt8)
  | .literal c, bs =>
    let cs := bytesOfChar c
    if cs.isPrefixOf bs then [bs.drop cs.length] else []
  | .anyByte, b :: bs => if wild literalSlash b then [bs] else []
  | .oneOf negated ranges, b :: bs => if ranges.any (inRange b) != negated then [bs] else []
  | .anyByte, [] | .oneOf _ _, [] => []
  | .star, bs => afterRun (wild literalSlash) bs
  | .leadingSegments, bs => bs :: afterAnySlash bs
  | .innerSegments, bs => (afterSlash bs).flatMap fun rest => rest :: afterAnySlash rest
  | .trailingSegments, bs => (afterSlash bs).flatMap (afterRun fun _ => true)
  | .alternatives branches, bs =>
    if areVoid branches then [bs] else afterBranches literalSlash branches bs

/-- What can be left behind one of several branches.  Branches that say nothing do not count. -/
def afterBranches (literalSlash : Bool) :
    List (List GlobToken) → List UInt8 → List (List UInt8)
  | [], _ => []
  | branch :: branches, bs =>
    (if isVoid branch then [] else afterTokens literalSlash branch bs) ++
      afterBranches literalSlash branches bs

/-- What can be left behind a sequence of tokens. -/
def afterTokens (literalSlash : Bool) : List GlobToken → List UInt8 → List (List UInt8)
  | [], bs => [bs]
  | t :: tokens, bs =>
    ((afterToken literalSlash t bs).eraseDups.flatMap (afterTokens literalSlash tokens)).eraseDups

end

/-! ## Names of files -/

/-- The literal characters that a pattern ends in, the last one first. -/
def literalTail (tokens : List GlobToken) : List Char :=
  (tokens.reverse.takeWhile fun | .literal _ => true | _ => false).filterMap fun
    | .literal c => some c
    | _ => none

/-- The characters up to the start of the extension, given the last one first: from the last dot of
the last segment backwards.  There are none without a dot, and they begin with a slash if the dot
belongs to another segment. -/
def fromExtension (tail : List Char) : List Char := tail.dropWhile fun c => !(c == '.' || c == '/')

/-- Whether a pattern asks for the name or the extension of a file: two stars before a name, or
anything with a wildcard that ends in a literal extension.  Stars that match slashes do so only
before an extension alone; otherwise they ask for the end of a path. -/
def asksForFile (literalSlash : Bool) (tokens : List GlobToken) : Bool :=
  let tail := literalTail tokens
  match tokens.take (tokens.length - tail.length), fromExtension tail with
  | [], _ => false
  | [.leadingSegments], _ => !tail.contains '/'
  | [.star], extension | [.leadingSegments, .star], extension =>
    extension.head? == some '.' && (literalSlash || extension.length == 1)
  | _, extension => extension.head? == some '.'

/-- Whether the last segment of a path leads upwards. -/
def endsUpwards (text : String) : Bool :=
  (text.toList.reverse.takeWhile fun c => !(c == '/')) == ['.', '.']

/-- **Whether a pattern matches a path.**  Two stars alone match every path. -/
def matchesText (literalSlash : Bool) (tokens : List GlobToken) (text : String) : Bool :=
  match tokens with
  | [.leadingSegments] => true
  | tokens =>
    !(asksForFile literalSlash tokens && endsUpwards text) &&
      (afterTokens literalSlash tokens (bytesOf text)).any List.isEmpty

end TypeScriptEngine.Glob
