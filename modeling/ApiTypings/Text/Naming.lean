/-!
# Names of the declaration language

What may stand where a declaration file needs a name. A reserved word or a name that starts with a
digit cannot be declared: it is declared under an alias, `_` and the name, and exported under its
own name. A member key is free of that rule but has to be quoted unless it is an identifier. A
parameter name cannot be exported, so its alias is final, and it has to be made an identifier first.

**Main definitions.** `escape` and `unescape` go between a name and its alias, `memberKey` and
`parameterName` write the other two kinds of name.
-/

namespace ApiTypings

/-! ### Reserved words -/

/-- The reserved words, those of strict mode included. -/
def reservedWords : List String :=
  ["break", "case", "catch", "class", "const", "continue", "debugger", "default", "delete", "do",
    "else", "enum", "export", "extends", "false", "finally", "for", "function", "if", "import",
    "in", "instanceof", "new", "null", "return", "super", "switch", "this", "throw", "true", "try",
    "typeof", "var", "void", "while", "with", "implements", "interface", "let", "package",
    "private", "protected", "public", "static", "yield"]

/-- Whether a name is a reserved word. -/
def isReserved (name : String) : Bool :=
  reservedWords.contains name

/-- Whether a name starts with an ASCII digit. -/
def startsWithDigit (name : String) : Bool :=
  name.toList.head?.any Char.isDigit

/-- Whether a name can only be declared under an alias. -/
def needsEscape (name : String) : Bool :=
  isReserved name || startsWithDigit name

/-! ### Aliases -/

/-- The name under which `name` is declared. -/
def escape (name : String) : String :=
  if needsEscape name then "_" ++ name else name

/-- The name that was declared as `declared`: an underscore goes if what follows it could not have
been declared without one. -/
def unescape (declared : String) : String :=
  match declared.toList with
  | '_' :: rest => if needsEscape (String.ofList rest) then String.ofList rest else declared
  | _ => declared

/-! ### Identifiers -/

/-- Whether an identifier may start with the character. -/
def isIdentifierStart (c : Char) : Bool :=
  c = '_' || c = '$' || c.isAlpha

/-- Whether an identifier may go on with the character. -/
def isIdentifierRest (c : Char) : Bool :=
  c = '_' || c = '$' || c.isAlphanum

/-- Whether the characters are an ASCII identifier; reserved words are identifiers here. -/
def isIdentifierChars : List Char → Bool
  | [] => false
  | c :: cs => isIdentifierStart c && cs.all isIdentifierRest

/-- Whether a name is an ASCII identifier. -/
def isIdentifier (name : String) : Bool :=
  isIdentifierChars name.toList

/-! ### Keys and parameters -/

/-- The text with another one in place of every occurrence of a character. -/
def replaceChar (c : Char) (replacement cs : List Char) : List Char :=
  cs.flatMap fun d => if d = c then replacement else [d]

/-- A backslash before every backslash, and then one before every double quote. The quotes come last:
their own backslashes are not replaced any more. -/
def escapeQuotes (cs : List Char) : List Char :=
  replaceChar '"' ['\\', '"'] (replaceChar '\\' ['\\', '\\'] cs)

/-- A name as the key of an object member: bare if it is an identifier, quoted if not. -/
def memberKey (name : String) : String :=
  if isIdentifier name then name
  else String.ofList ('"' :: (escapeQuotes name.toList ++ ['"']))

/-- The name with an underscore for every character that is no ASCII letter or digit. -/
def cleanedName (name : String) : String :=
  String.ofList (name.toList.map fun c => if c.isAlphanum then c else '_')

/-- A name as the name of a parameter. -/
def parameterName (name : String) : String :=
  if isIdentifier name then escape name else escape (cleanedName name)

end ApiTypings
