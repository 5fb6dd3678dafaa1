import ApiTypings.Json.Value
/-!
# Declared symbols

Every declared symbol is announced with its dotted path. A `SymbolTable` keeps the announcements in
their order and answers questions about paths. One path may be announced several times; an index
remembers where it was first.
-/

namespace ApiTypings

/-- What a symbol is declared as. -/
inductive SymbolKind
  | namespaceBlock
  | interfaceType
  | classType
  | typeAlias
  | const
  | letVariable
  | event
  | function
  | property
  | method
  deriving DecidableEq, Repr, Inhabited

namespace SymbolKind

/-- The word for a kind of symbol. -/
def word : SymbolKind → String
  | namespaceBlock => "namespace"
  | interfaceType => "interface"
  | classType => "class"
  | typeAlias => "type"
  | const => "const"
  | letVariable => "variable"
  | event => "event"
  | function => "function"
  | property => "property"
  | method => "method"

/-- All kinds of symbols. -/
def all : List SymbolKind :=
  [namespaceBlock, interfaceType, classType, typeAlias, const, letVariable, event, function, property,
    method]

/-- The kind of a word. -/
def ofWord? (word : String) : Option SymbolKind :=
  all.find? (·.word = word)

end SymbolKind

/-- One declared symbol. -/
structure DeclaredSymbol where
  path : String
  kind : SymbolKind
  deprecated : Bool
  deriving DecidableEq, Repr, Inhabited

/-- The announced symbols in their order, and where each path was first. -/
structure SymbolTable where
  symbols : List DeclaredSymbol := []
  /-- The positions of the first symbols of the paths. -/
  positions : List (String × Nat) := []
  deriving DecidableEq, Repr, Inhabited

namespace SymbolTable

/-- The positions with that of a path, unless it has one already. -/
def notePosition (path : String) (position : Nat) (positions : List (String × Nat)) :
    List (String × Nat) :=
  if (positions.lookup path).isSome then positions else positions ++ [(path, position)]

/-- The table with one more announcement. -/
def announce (t : SymbolTable) (s : DeclaredSymbol) : SymbolTable where
  symbols := t.symbols ++ [s]
  positions := notePosition s.path t.symbols.length t.positions

/-- The table of announcements. -/
def ofList (symbols : List DeclaredSymbol) : SymbolTable where
  symbols := symbols
  positions := symbols.zipIdx.foldl (fun positions s => notePosition s.1.path s.2 positions) []

/-- The paths in the order of announcement. -/
def paths (t : SymbolTable) : List String :=
  t.symbols.map (·.path)

/-- The first symbol announced at a path. -/
def get? (t : SymbolTable) (path : String) : Option DeclaredSymbol :=
  (t.positions.lookup path).bind (t.symbols[·]?)

/-- How many symbols were announced. -/
def size (t : SymbolTable) : Nat :=
  t.symbols.length

/-- Whether no symbol was announced. -/
def isEmpty (t : SymbolTable) : Bool :=
  t.symbols.isEmpty

/-- What is told of a symbol under its path. -/
def entry (s : DeclaredSymbol) : Json.Value :=
  .object [("kind", .string s.kind.word), ("deprecated", .bool s.deprecated)]

/-- The paths with what is told of them, each path once: in the place of its first announcement,
with what the last one says. -/
def entries (t : SymbolTable) : List (String × Json.Value) :=
  Json.distinctMembers (t.symbols.map fun s => (s.path, entry s))

/-- The table as a JSON object. -/
def toJson (t : SymbolTable) : Json.Value :=
  .object t.entries

end SymbolTable

end ApiTypings
