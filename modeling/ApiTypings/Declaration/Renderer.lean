import ApiTypings.Declaration.Announcing
import ApiTypings.Declaration.Document
import ApiTypings.Declaration.Lowering
import ApiTypings.Schema.Visibility
/-!
# Rendering namespaces

The namespaces that have anything to declare are rendered in the order of their names, each as a
block: its types, then its values, then its functions. Names that need an alias are declared under
it and exported at the end of the block; a segment of the dotted name of a namespace that needs an
alias is exported from the namespace around it.

`declareNamespaces` makes the document and the announcements. A `Renderer` renders one list of
namespaces after another and keeps the state that one rendering leaves for the next.
-/

namespace ApiTypings

/-! ### Options -/

/-- The namespace that namespaces are nested in unless the options say otherwise. -/
def defaultRoot : String := "chrome"

/-- How namespaces are rendered. -/
structure RenderOptions where
  /-- The namespace that all namespaces are nested in; without one each is declared by itself. -/
  root : Option String := some defaultRoot
  /-- Order the members of a namespace by name, inside each of the three groups. -/
  sortMembers : Bool := false
  /-- One level of indentation. -/
  indent : String := defaultIndent
  deriving DecidableEq, Repr, Inhabited

/-! ### Template parameters -/

/-- The names in a list of template parameters: `["H", "C"]` for `H extends F, C = void`. -/
def templateNames (templates : String) : List String :=
  (templates.toList.splitOn ',').filterMap fun part => (firstWordChars? part).map String.ofList

/-- The template parameters of a type that is declared at a path. -/
def templatesOf? (path : String) (t : ApiType) : Option String :=
  match t with
  | .object _ _ templates _ => objectTemplatesFor? path <|> templates
  | _ => objectTemplatesFor? path

/-! ### Members of a namespace -/

/-- What a member of an object is announced as. -/
def memberKind (p : Property ApiType) : SymbolKind :=
  if p.isEvent then .event
  else if p.type.isFunction && p.mayBeMethod then .method
  else .property

/-- Announces the visible properties of an object that was declared at a path. -/
def announceMembers (path : String) (properties : List (Property ApiType)) : Announcing Unit :=
  (Property.visible properties).forM fun p =>
    .announce (member path p.name) (memberKind p) p.deprecated.isSome

/-- Declares a type with the template parameters that are in scope. -/
def declareScopedType (p : Property ApiType) (path : String) (templates : Option String) :
    Announcing (List Statement) := do
  let scope ← .scope
  let name := escape p.name
  let doc := p.toTraits.doc p.type path
  match p.type with
  | .object properties index _ instanceType =>
    let members ← .lift (ApiType.lowerObject scope path properties index)
    let declaration := if instanceType.isSome
      then Declaration.classType name templates (templates.elim [] templateNames) members
      else Declaration.interfaceType name templates members
    .announce path (if instanceType.isSome then .classType else .interfaceType) p.deprecated.isSome
    announceMembers path properties
    return [⟨doc, declaration⟩]
  | t =>
    let type ← .lift (t.lower scope path)
    .announce path .typeAlias p.deprecated.isSome
    return [⟨doc, .typeAlias name templates type⟩]

/-- Declares a type. Its own template parameters are in scope. -/
def declareType (ns : String) (p : Property ApiType) : Announcing (List Statement) :=
  let path := member ns p.name
  let templates := templatesOf? path p.type
  .withScope (templates.elim [] templateNames) (declareScopedType p path templates)

/-- The declaration of a value, and what it is announced as. -/
def valueDeclaration (scope : List String) (p : Property ApiType) (path : String) :
    Except DeclarationError (SymbolKind × Declaration) := do
  let name := escape p.name
  match p.type, p.isConst with
  | .literal value, true => return (.const, .constant name value)
  | type, isConst =>
    let lowered ← type.lower scope path
    if p.isEvent then return (.event, .typedConstant name lowered)
    else if isConst then return (.const, .typedConstant name lowered)
    else return (.letVariable, .letVariable name (if p.optional then lowered.orUndefined else lowered))

/-- Declares a value. -/
def declareValue (ns : String) (p : Property ApiType) : Announcing (List Statement) := do
  let path := member ns p.name
  let (kind, declaration) ← .lift (valueDeclaration (← .scope) p path)
  .announce path kind p.deprecated.isSome
  return [⟨p.toTraits.doc p.type path, declaration⟩]

/-- Declares the overloads of a function. Each announces the function, and all but the first do so
muted. -/
def declareOverloads (p : Property ApiType) (path : String) (first : Bool) :
    List (Signature Deferred) → Announcing (List Statement)
  | [] => return []
  | s :: rest => do
    .mute (!first)
    .announce path .function p.deprecated.isSome
    let (parameters, returns) ← .lift s.lowered
    let statements ← declareOverloads p path false rest
    return ⟨s.doc (p.toTraits.doc p.type path), .function (escape p.name) parameters returns⟩
      :: statements

/-- Declares a function. -/
def declareFunction (ns : String) (p : Property ApiType) : Announcing (List Statement) := do
  let path := member ns p.name
  match p.type.lowerCallable? (← .scope) path with
  | none => return []
  | some c =>
    let signatures ← .lift (c.loweredSignatures path)
    let statements ← declareOverloads p path true signatures
    .mute false
    return statements

/-! ### Names that need an alias -/

/-- The exports of the names that need an alias. -/
def aliasesOf (names : List String) : List Alias :=
  (names.filter needsEscape).map fun name => ⟨escape name, name⟩

/-- A dotted name, escaped segment by segment. -/
def escapeDotted (name : String) : String :=
  ".".intercalate ((segments name).map escape)

/-- The export of a segment of a dotted name, from the namespace named by the escaped segments
before it. The scope is empty for the first segment. -/
structure ScopedAlias where
  scope : String
  entry : Alias
  deriving DecidableEq, Repr

/-- The exports that the segments of a dotted name need. `before` are the escaped segments so far.
-/
def segmentAliases (before : List String) : List String → List ScopedAlias
  | [] => []
  | s :: rest =>
    (aliasesOf [s]).map (ScopedAlias.mk (".".intercalate before))
      ++ segmentAliases (before ++ [escape s]) rest

/-- The exports that the names of namespaces need, each once. -/
def namespaceAliases (names : List String) : List ScopedAlias :=
  (names.flatMap fun name => segmentAliases [] (segments name)).foldl
    (fun done a => if done.contains a then done else done ++ [a]) []

/-- The exports inside other namespaces, by the namespace and in the order of their names. -/
def scopedGroups (aliases : List ScopedAlias) : List (String × List Alias) :=
  let scopes := (NameSet.ofList ((aliases.map (·.scope)).filter (· ≠ ""))).toList
  scopes.map fun scope => (scope, (aliases.filter (·.scope = scope)).map (·.entry))

/-! ### Namespaces -/

/-- Properties in the order of their names. -/
def sortByName (ps : List (Property ApiType)) : List (Property ApiType) :=
  ps.mergeSort fun a b => a.name ≤ b.name

/-- The visible members of a namespace in three groups: types, values and functions. -/
def memberGroups (sorted : Bool) (members : List (Property ApiType)) :
    List (Property ApiType) × List (Property ApiType) × List (Property ApiType) :=
  let visible := Property.visible members
  let order := if sorted then sortByName else id
  let types := visible.filter (·.isType)
  let others := visible.filter (!·.isType)
  (order types, order (others.filter (!·.type.isFunction)), order (others.filter (·.type.isFunction)))

/-- Declares the members of a namespace, in a block. -/
def declareMembers (options : RenderOptions) (ns : Namespace) : Announcing Block := do
  let (types, values, functions) := memberGroups options.sortMembers ns.members
  let typeParagraphs ← types.mapM (declareType ns.name)
  let valueParagraphs ← values.mapM (declareValue ns.name)
  let functionParagraphs ← functions.mapM (declareFunction ns.name)
  return {
    doc := { description := ns.description, deprecated := ns.deprecated, tags := ns.feature.tags }
    name := escapeDotted ns.name
    paragraphs := typeParagraphs ++ valueParagraphs ++ functionParagraphs
    aliases := aliasesOf ((types ++ values ++ functions).map (·.name)) }

/-- Declares a namespace. -/
def declareNamespace (options : RenderOptions) (ns : Namespace) : Announcing Block := do
  .announce ns.name .namespaceBlock ns.deprecated.isSome
  declareMembers options ns

/-- The namespaces that have anything to declare, in the order of their names. -/
def visibleNamespaces (namespaces : List Namespace) : List Namespace :=
  (namespaces.filter Namespace.hasVisibleMembers).mergeSort fun a b => a.name ≤ b.name

/-- Declares namespaces. -/
def declareNamespaces (options : RenderOptions) (namespaces : List Namespace) :
    Announcing Document := do
  let visible := visibleNamespaces namespaces
  let blocks ← visible.mapM (declareNamespace options)
  let aliases := namespaceAliases (visible.map (·.name))
  return {
    root := options.root
    blocks := blocks
    scopedAliases := scopedGroups aliases
    aliases := (aliases.filter (·.scope = "")).map (·.entry) }

/-! ### The renderer -/

/-- Renders lists of namespaces, one after another. -/
structure Renderer where
  options : RenderOptions := {}
  state : RendererState := {}
  deriving DecidableEq, Repr, Inhabited

/-- The outcome of one rendering. -/
structure Rendering where
  text : Except DeclarationError String
  /-- The symbols that were heard, also before an error. -/
  symbols : List DeclaredSymbol
  /-- The renderer for what comes next. -/
  next : Renderer

namespace Renderer

/-- Renders namespaces. -/
def render (r : Renderer) (namespaces : List Namespace) : Rendering :=
  let declared := declareNamespaces r.options namespaces r.state
  { text := declared.result.map fun d => d.text r.options.indent
    symbols := declared.symbols
    next := { r with state := declared.state } }

/-- Renders several lists of namespaces in turn. -/
def renderAll (r : Renderer) : List (List Namespace) → List Rendering
  | [] => []
  | namespaces :: rest =>
    let rendering := r.render namespaces
    rendering :: rendering.next.renderAll rest

end Renderer

end ApiTypings
