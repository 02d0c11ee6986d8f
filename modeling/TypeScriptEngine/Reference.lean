import TypeScriptEngine.Token.Scan
import TypeScriptEngine.Token.Stream

/-!
# References of a file

The references that a file makes to other files, read off its tokens and leading comments.  There
are two sorts.  A **directive** is a comment with three slashes at the head of the file that names a
path, relative to the file.  An **import** is a module specifier, whether it stands in an `import`
or `export` statement, in a call of `import`, or in a directive that names types.
-/

namespace TypeScriptEngine

/-- The two sorts of reference. -/
inductive ReferenceKind where
  /-- A path relative to the referencing file. -/
  | directive
  /-- A module specifier, whose meaning is the resolver's business. -/
  | module
deriving DecidableEq, Repr

/-- A reference as it is written in a file. -/
structure Reference where
  kind : ReferenceKind
  specifier : String
  /-- Where the specifier stands, without its quotes. -/
  span : Span
deriving DecidableEq, Repr

/-- What a file says about other files. -/
structure FileReferences where
  /-- The references, those of directives before those of statements. -/
  references : List Reference
  /-- Whether a directive asks to leave out the standard library. -/
  noDefaultLib : Bool
deriving DecidableEq, Repr

namespace Reference

open TokenStream (headKind)

/-! ## Directives -/

/-- A value in quotes. -/
structure Quoted where
  /-- How many bytes precede the value. -/
  offset : Nat
  value : List Char
deriving DecidableEq, Repr

/-- What follows the name of an attribute, which starts `pos` bytes into the comment: an equals sign
and an opening quote, with white space around the sign.  The result is the text from the quote
on, and how many bytes precede it. -/
def attributeQuote? (pos : Nat) (cs : List Char) : Option (Nat × List Char) :=
  match Text.trimStart cs with
  | '=' :: rest =>
    match Text.trimStart rest with
    | c :: value =>
      if c == '"' || c == '\'' then
        some (pos + Text.byteLength cs - Text.byteLength (c :: value), c :: value)
      else none
    | [] => none
  | _ => none

/-- The value that a quote opens; there is none if the quote is not closed. -/
def quoted? (pos : Nat) : List Char → Option Quoted
  | [] => none
  | quote :: rest =>
    if rest.contains quote then some ⟨pos + 1, rest.takeWhile (· != quote)⟩ else none

/-- The value of the first attribute of a name.  The name must follow white space; an occurrence
that is not followed by an equals sign and a quote is passed over.  `pos` bytes precede the text,
the last of which is `previous`. -/
def attribute? (name : List Char) (previous : Option Char) (pos : Nat) (cs : List Char) :
    Option Quoted :=
  match cs with
  | [] => none
  | c :: rest =>
    if name.isPrefixOf (c :: rest) then
      let further := rest.drop (name.length - 1)
      let pos' := pos + Text.byteLength (c :: rest) - Text.byteLength further
      match if previous.any Text.isAsciiBlank then attributeQuote? pos' further else none with
      | some (at', quote) => quoted? at' quote
      | none => attribute? name name.getLast? pos' further
    else attribute? name (some c) (pos + c.utf8Size) rest
termination_by cs.length
decreasing_by all_goals simp only [List.length_drop, List.length_cons]; omega

/-- The reference that a quoted value makes, in a comment whose text starts at byte `base`. -/
def ofQuoted (kind : ReferenceKind) (base : Nat) (q : Quoted) : Reference where
  kind := kind
  specifier := String.ofList q.value
  span := ⟨base + q.offset, base + q.offset + Text.byteLength q.value⟩

/-- The text of a directive: a line comment with a third slash and an opening tag of the name
`reference`. -/
def directiveBody? (c : Comment) : Option (List Char) :=
  match c.kind, c.text.toList with
  | .line, '/' :: body =>
    if "<reference".toList.isPrefixOf (Text.trimStart body) then some body else none
  | _, _ => none

/-- What one leading comment says.  A path wins over types. -/
def ofComment (c : Comment) : FileReferences :=
  match directiveBody? c with
  | none => ⟨[], false⟩
  | some body =>
    let base := c.span.start + 3
    let path := (attribute? "path".toList none 0 body).map (ofQuoted .directive base)
    let types := (attribute? "types".toList none 0 body).map (ofQuoted .module base)
    let noLib := attribute? "no-default-lib".toList none 0 body
    ⟨(path.or types).toList, noLib.any fun q => q.value == "true".toList⟩

/-- The comments before the first token that is no fault. -/
def leadingComments (scan : Scan) : List Comment :=
  match scan.tokens.find? fun t => !t.isFault with
  | some first => scan.comments.takeWhile fun c => c.span.start < first.span.start
  | none => scan.comments

/-! ## Imports and exports -/

/-- The reference that a string literal makes. -/
def ofLiteral (t : Token) : Reference := ⟨.module, t.value, t.span.unquoted⟩

/-- The first token if it is a string literal. -/
def headString? : TokenStream → Option Token
  | t :: _ => if t.kind = .stringLiteral then some t else none
  | [] => none

/-- The string literal in `require("x")`. -/
def requireCall? : TokenStream → Option Token
  | require :: paren :: literal :: _ =>
    if require.kind = .kwRequire ∧ paren.kind = .lparen ∧ literal.kind = .stringLiteral then
      some literal
    else none
  | _ => none

/-- The source of an import, from the token after the word `import` on: `from "x"`, or an equals
sign with `require("x")`. -/
def importSource? : TokenStream → Option Token
  | [] => none
  | t :: rest =>
    match t.kind with
    | .kwFrom => if headKind rest = .stringLiteral then headString? rest else importSource? rest
    | .equals => requireCall? rest
    | .semicolon | .eof | .kwImport | .kwExport | .lparen => none
    | _ => importSource? rest

/-- `from "x"` at the head of a stream. -/
def fromClause? : TokenStream → Option Token
  | word :: rest => if word.kind = .kwFrom then headString? rest else none
  | [] => none

/-- The stream after the brace that balances `depth` open ones. -/
def afterBraces? (depth : Nat) : TokenStream → Option TokenStream
  | [] => none
  | t :: rest =>
    match t.kind with
    | .lbrace => afterBraces? (depth + 1) rest
    | .rbrace => if depth ≤ 1 then some rest else afterBraces? (depth - 1) rest
    | .eof => none
    | _ => afterBraces? depth rest

/-- The source of an export list, or of a star with or without a name. -/
def exportListSource? : TokenStream → Option Token
  | [] => none
  | t :: rest =>
    match t.kind with
    | .star => fromClause? (if headKind rest = .kwAs then rest.drop 2 else rest)
    | .lbrace => (afterBraces? 1 rest).bind fromClause?
    | _ => none

/-- The source of an export, from the token after the word `export` on.  The list may be marked as
one of types. -/
def exportSource? : TokenStream → Option Token
  | t :: rest =>
    if t.kind = .kwType ∧ headKind rest = .lbrace then exportListSource? rest
    else exportListSource? (t :: rest)
  | [] => none

/-- The source that an `import` names, from the token after it on. -/
def importedBy? (ts : TokenStream) : Option Token :=
  match headKind ts with
  | .lparen => headString? (ts.drop 1)
  | .stringLiteral => headString? ts
  | .dot => none
  | _ => importSource? ts

/-- The references of all statements and calls, after a token of kind `previous`.  After a dot
`import` and `export` are names of members. -/
def ofTokens (previous : TokenKind) : TokenStream → List Reference
  | [] => []
  | t :: rest =>
    let source? :=
      if previous.isDot then none
      else match t.kind with
        | .kwImport => importedBy? rest
        | .kwExport => exportSource? rest
        | _ => none
    (source?.map ofLiteral).toList ++ ofTokens t.kind rest

end Reference

/-- The references of a scanned text. -/
def FileReferences.ofScan (scan : Scan) : FileReferences :=
  let directives := (Reference.leadingComments scan).map Reference.ofComment
  { references :=
      directives.flatMap FileReferences.references ++ Reference.ofTokens .eof scan.tokens
    noDefaultLib := directives.any FileReferences.noDefaultLib }

/-- **The references of a text.** -/
def FileReferences.ofText (text : String) : FileReferences :=
  .ofScan (.ofText text)

end TypeScriptEngine
