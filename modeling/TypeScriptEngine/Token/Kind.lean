/-!
# Kinds of token

Only the words that matter for module, declaration and type syntax have a kind of their own; every
other word is an `identifier`.  Some of those words are **contextual**: outside their special
position they are ordinary names (`isContextual`, `isName`).
-/

namespace TypeScriptEngine

/-- What is wrong with a piece of text that is no token. -/
inductive LexicalFault where
  | unterminatedString
  | unterminatedTemplate
  | unterminatedComment
  | unterminatedRegex
  | invalidCharacter
deriving DecidableEq, Repr

/-- The wording of a lexical fault. -/
def LexicalFault.message : LexicalFault → String
  | .unterminatedString => "Unterminated string literal."
  | .unterminatedTemplate => "Unterminated template literal."
  | .unterminatedComment => "'*/' expected."
  | .unterminatedRegex => "Unterminated regular expression literal."
  | .invalidCharacter => "Invalid character."

/-- The kind of a token. -/
inductive TokenKind where
  -- reserved words
  | kwImport | kwExport | kwConst | kwLet | kwVar | kwFunction | kwClass | kwEnum | kwDefault
  | kwExtends | kwReturn | kwTypeof | kwNew
  -- contextual words
  | kwFrom | kwAs | kwType | kwInterface | kwDeclare | kwNamespace | kwModule | kwGlobal
  | kwRequire | kwAbstract | kwAsync | kwImplements | kwPublic | kwPrivate | kwProtected
  | kwReadonly | kwStatic | kwOverride | kwSatisfies | kwKeyof
  -- names and literals
  | identifier | stringLiteral | numberLiteral | regexLiteral
  /-- A template without substitutions. -/
  | templateLiteral
  /-- A template up to its first substitution. -/
  | templateHead
  /-- A template between two substitutions. -/
  | templateMiddle
  /-- A template after its last substitution. -/
  | templateTail
  -- delimiters and the operators that type syntax uses
  | lparen | rparen | lbrace | rbrace | lbracket | rbracket | semicolon | comma | colon
  | question | questionDot | dot | ellipsis | equals | arrow | lt | gt | star | pipe | amp | bang
  | atSign
  /-- Any other operator. -/
  | operator
  /-- The end of the text. -/
  | eof
  /-- A piece of text that is no token. -/
  | fault (cause : LexicalFault)
deriving DecidableEq, Repr

namespace TokenKind

/-- The kind of a word that is not a plain identifier. -/
def ofWord? : String → Option TokenKind
  | "import" => some kwImport
  | "export" => some kwExport
  | "const" => some kwConst
  | "let" => some kwLet
  | "var" => some kwVar
  | "function" => some kwFunction
  | "class" => some kwClass
  | "enum" => some kwEnum
  | "default" => some kwDefault
  | "extends" => some kwExtends
  | "return" => some kwReturn
  | "typeof" => some kwTypeof
  | "new" => some kwNew
  | "from" => some kwFrom
  | "as" => some kwAs
  | "type" => some kwType
  | "interface" => some kwInterface
  | "declare" => some kwDeclare
  | "namespace" => some kwNamespace
  | "module" => some kwModule
  | "global" => some kwGlobal
  | "require" => some kwRequire
  | "abstract" => some kwAbstract
  | "async" => some kwAsync
  | "implements" => some kwImplements
  | "public" => some kwPublic
  | "private" => some kwPrivate
  | "protected" => some kwProtected
  | "readonly" => some kwReadonly
  | "static" => some kwStatic
  | "override" => some kwOverride
  | "satisfies" => some kwSatisfies
  | "keyof" => some kwKeyof
  | _ => none

/-- The kind of a word. -/
def ofWord (word : String) : TokenKind :=
  (ofWord? word).getD identifier

/-- Words that are names outside their special position. -/
def isContextual : TokenKind → Bool
  | kwFrom | kwAs | kwType | kwInterface | kwDeclare | kwNamespace | kwModule | kwGlobal
  | kwRequire | kwAbstract | kwAsync | kwImplements | kwPublic | kwPrivate | kwProtected
  | kwReadonly | kwStatic | kwOverride | kwSatisfies | kwKeyof => true
  | _ => false

/-- Tokens that can be used as a name. -/
def isName (k : TokenKind) : Bool :=
  k == identifier || k.isContextual

/-- The modifiers that turn a constructor parameter into a property. -/
def isAccessModifier : TokenKind → Bool
  | kwPublic | kwPrivate | kwProtected | kwReadonly => true
  | _ => false

/-- Access modifiers and `override`. -/
def isMemberModifier (k : TokenKind) : Bool :=
  k.isAccessModifier || k == kwOverride

/-- An opening parenthesis, bracket or brace. -/
def isOpener : TokenKind → Bool
  | lparen | lbracket | lbrace => true
  | _ => false

/-- A closing parenthesis, bracket or brace. -/
def isCloser : TokenKind → Bool
  | rparen | rbracket | rbrace => true
  | _ => false

/-- The closing bracket that belongs to an opening one. -/
def closer? : TokenKind → Option TokenKind
  | lparen => some rparen
  | lbracket => some rbracket
  | lbrace => some rbrace
  | _ => none

/-- The dot operators, after which every word is a member name. -/
def isDot : TokenKind → Bool
  | dot | questionDot => true
  | _ => false

/-- The words that declare variables. -/
def isVariableWord : TokenKind → Bool
  | kwVar | kwLet | kwConst => true
  | _ => false

end TokenKind

/-- The two forms of a comment. -/
inductive CommentKind where
  /-- From two slashes to the end of the line. -/
  | line
  /-- Between a slash with a star and a star with a slash. -/
  | block
deriving DecidableEq, Repr

end TypeScriptEngine
