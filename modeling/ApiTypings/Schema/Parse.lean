import ApiTypings.Schema.Error
import ApiTypings.Schema.Model
import ApiTypings.Schema.Node
import ApiTypings.Text.Blank
/-!
# From schema nodes to the model

What a node is, is decided by the first of its keys in this order: `choices`, `enum`, `$ref`,
`isInstanceOf`, a scalar `value`, and the declared `type`. A node without a `type` is an object if
it has `properties`, an array if it has `items`, and a function if it has `parameters`.

**Nesting.** Nodes may nest `maxNesting` deep. The level of a node is one more than that of the node
around it, except that members of an object which are functions or events take a level of their own
without being checked at it. So what a node is made of is parsed one, two or three levels below it,
and everything but the recursion itself is stated over a `Levels`: the parsers for these three
levels.
-/

namespace ApiTypings

/-- Parses the node at a dotted path. -/
abbrev NodeParser := Node → String → Except SchemaError ApiType

/-- The parsers for the next three levels. -/
structure Levels where
  first : NodeParser
  second : NodeParser
  third : NodeParser

/-! ### Members -/

/-- The property of a node with this name and type. -/
def Node.toProperty (n : Node) (name : String) (type : ApiType) : Property ApiType where
  name := name
  type := type
  optional := n.optional
  nodoc := n.nodoc
  deprecated := n.deprecated
  description := n.description

/-- The name that a node has to have. -/
def Node.requireName (n : Node) (parent : String) (what : NamedKind) : Except SchemaError String :=
  match n.name with
  | some name => .ok name
  | none => .error (.missingName parent what)

/-- The members with one more, whose name must be new. -/
def addMember (path : String) (members : List (Property ApiType)) (p : Property ApiType) :
    Except SchemaError (List (Property ApiType)) :=
  if members.any (·.name = p.name) then .error (.duplicateMember path p.name)
  else .ok (members ++ [p])

/-! ### Literals -/

/-- The type of an entry of an `enum` list. -/
def EnumEntry.toType : EnumEntry → ApiType
  | name s => .literal (.string s)
  | number n => .literal (.number n)
  | described s _ => .literal (.string s)

/-- The literal that a scalar value is. -/
def scalarLiteral? : Json.Value → Option Literal
  | .string s => some (.string s)
  | .number n => some (.number n)
  | .bool b => some (.boolean b)
  | .null | .array _ | .object _ => none

/-! ### Functions and events -/

/-- The parameters of a function or an event. -/
def parseParameters (parse : NodeParser) (path : String) (nodes : Option (List Node)) :
    Except SchemaError (List (Property ApiType)) :=
  (nodes.getD []).mapM fun n => do
    let name ← n.requireName path .parameterNode
    let type ← parse n (member path name)
    return n.toProperty name type

/-- The name of a completion callback that has none. -/
def defaultCallbackName : String := "callback"

/-- A function node. Its parameters and its result are parsed by `inner`, the parameters of its
completion callback by `deeper`. -/
def parseFunction (inner deeper : NodeParser) (n : Node) (path : String) :
    Except SchemaError ApiType := do
  if n.returns.isSome && n.returnsAsync.isSome then throw (.conflictingReturns path)
  let parameters ← parseParameters inner path n.parameters
  let returns ← n.returns.mapM fun result => do
    let type ← inner result (member path Property.returnName)
    return result.toProperty Property.returnName type
  let completion ← n.returnsAsync.mapM fun callback => do
    let name := callback.name.getD defaultCallbackName
    let parameters ← parseParameters deeper (member path name) callback.parameters
    return callback.toProperty name (.function parameters none none false)
  return .function parameters returns completion
    (n.returnsAsync.any (·.doesNotSupportPromises.isSome))

/-- The type of a declarative event: it has no listeners, but rules of conditions and actions. -/
def declarativeEvent (options : EventOptions) (path : String) : Except SchemaError ApiType :=
  match options.conditions, options.actions with
  | none, _ => .error (.missingDeclarativeList path .conditions)
  | _, none => .error (.missingDeclarativeList path .actions)
  | some conditions, some actions =>
    .ok (.reference ⟨ApiType.eventName, false, false⟩ [
      .function [] none none false,
      .choices (conditions.map .named),
      .choices (actions.map .named)])

/-- An event node: a reference to the type of events, with the type of the listeners as argument.
Its parameters and its result are parsed by `inner`. -/
def parseEvent (inner : NodeParser) (n : Node) (path : String) : Except SchemaError ApiType :=
  let options := n.options.getD {}
  if options.supportsListeners = some false then declarativeEvent options path
  else do
    let parameters ← parseParameters inner path n.parameters
    let returns ← n.returns.mapM fun result => do
      let type ← inner result (member path Property.returnName)
      return { Property.result type with optional := result.optional }
    return .reference ⟨ApiType.eventName, false, false⟩ [.function parameters returns none false]

/-! ### Objects -/

/-- The key of the property that makes an object an instance type. -/
def instanceTypeKey : String := "instanceType"

/-- The name of the instance type that a property of an object gives, if it gives one. -/
def instanceTypeName? (key : String) (n : Node) : Option String :=
  match n.enumEntries with
  | some [.name name] => if key = instanceTypeKey then some name else none
  | _ => none

/-- An object node: its properties, then its functions, then its events. The instance type is no
property; the last one given counts. -/
def parseObject (below : Levels) (n : Node) (path : String) : Except SchemaError ApiType := do
  let properties := n.properties.getD []
  let members ← (properties.filter fun p => (instanceTypeName? p.1 p.2).isNone).foldlM
    (fun members (key, node) => do
      let type ← below.first node (member path key)
      addMember path members (node.toProperty key type)) []
  let members ← (n.functions.getD []).foldlM
    (fun members node => do
      let name ← node.requireName path .functionNode
      let type ← parseFunction below.second below.third node (member path name)
      addMember path members (node.toProperty name type)) members
  let members ← (n.events.getD []).foldlM
    (fun members node => do
      let name ← node.requireName path .eventNode
      let type ← parseEvent below.second node (member path name)
      addMember path members { node.toProperty name type with isEvent := true }) members
  let index ← n.additionalProperties.mapM (below.first · path)
  let instanceType := (properties.filterMap fun p => instanceTypeName? p.1 p.2).getLast?
  return .object members index none instanceType

/-! ### Types -/

/-- The argument of a reference to a setting: `value` is then a pair of a name and a schema. -/
def parseSetting (below : Levels) (n : Node) (path : String) :
    Except SchemaError (List ApiType) :=
  match n.value with
  | some (.array [_, schema]) =>
    match Node.read schema with
    | none => .error (.unexpectedShape path .settingValue)
    | some schema => do return [← below.first schema path]
  | _ => .ok []

/-- The `type` of a node that declares none. -/
def inferredKind? (n : Node) : Option String :=
  if n.properties.isSome then some "object"
  else if n.items.isSome then some "array"
  else if n.parameters.isSome then some "function"
  else none

/-- A node of a declared or inferred type. -/
def parseKind (below : Levels) (n : Node) (path : String) (kind : String) :
    Except SchemaError ApiType :=
  match kind with
  | "array" =>
    match n.items with
    | none => .error (.unexpectedShape path .arrayWithoutItems)
    | some items => do return .sequence (← below.first items path) (n.minItems.getD 0) n.maxItems
  | "number" | "double" => .ok (.number false n.minimum n.maximum)
  | "integer" | "int64" => .ok (.number true n.minimum n.maximum)
  | "binary" => .ok (.host "ArrayBuffer" [])
  | "boolean" => .ok (.primitive .boolean)
  | "any" => .ok (.primitive .any)
  | "string" => .ok (.primitive .string)
  | "null" => .ok (.primitive .null)
  | "object" => parseObject below n path
  | "function" => parseFunction below.first below.second n path
  | other => .error (.unknownType path other)

/-- A node, by the first key that tells what it is. A reference with properties of its own is both
the type referred to and an object. -/
def parseNode (below : Levels) (n : Node) (path : String) : Except SchemaError ApiType :=
  match n.choices, n.enumEntries, n.target, n.instanceOf, n.value.bind scalarLiteral? with
  | some choices, _, _, _, _ => do return .choices (← choices.mapM (below.first · path))
  | _, some entries, _, _, _ => .ok (.choices (entries.map EnumEntry.toType))
  | _, _, some target, _, _ => do
    let reference := .reference ⟨target, false, false⟩ (← parseSetting below n path)
    if n.properties.isSome then return .intersection [reference, ← parseObject below n path]
    return reference
  | _, _, _, some target, _ => .ok (.host target [])
  | _, _, _, _, some literal => .ok (.literal literal)
  | _, _, _, _, none =>
    match n.kind <|> inferredKind? n with
    | none => .error (.missingType path)
    | some kind => parseKind below n path kind

/-- The parser below the deepest level. -/
def refuseNesting : NodeParser := fun _ path =>
  .error (.unexpectedShape path .nestingTooDeep)

/-- The parsers for the next three levels where `room` levels are left. -/
def levels : (room : Nat) → Levels
  | 0 => ⟨refuseNesting, refuseNesting, refuseNesting⟩
  | room + 1 =>
    let below := levels room
    ⟨parseNode below, below.first, below.second⟩

/-! ### Namespaces -/

namespace NamespaceNode

/-- The namespace that a node writes: its types, then its properties, functions and events. The id
of a type may be qualified with the name of the namespace. -/
def parse (n : NamespaceNode) : Except SchemaError Namespace := do
  let name := trim n.name
  if name = "" then throw (.missingName "<root>" .namespaceNode)
  let top := levels maxNesting
  let members ← n.types.foldlM
    (fun members node => do
      let some id := node.id | throw (.missingName name .typeNode)
      let id := (localName? name id).getD id
      let type ← top.first node (member name id)
      addMember name members { node.toProperty id type with isType := true, optional := false }) []
  let members ← n.properties.foldlM
    (fun members (key, node) => do
      let type ← top.first node (member name key)
      addMember name members { node.toProperty key type with isConst := node.value.isSome }) members
  let members ← n.functions.foldlM
    (fun members node => do
      let fname ← node.requireName name .functionNode
      let type ← parseFunction top.second top.third node (member name fname)
      addMember name members (node.toProperty fname type)) members
  let members ← n.events.foldlM
    (fun members node => do
      let ename ← node.requireName name .eventNode
      let type ← parseEvent top.second node (member name ename)
      addMember name members { node.toProperty ename type with isEvent := true }) members
  return {
    name := name
    members := members
    description := n.description
    deprecated := n.deprecated
    nodoc := n.nodoc }

end NamespaceNode

/-- The namespaces of the text of a schema file. -/
def parseSchema (text : String) : Except SchemaError (List Namespace) :=
  match (Json.Value.ofText? text).bind NamespaceNode.readFile with
  | none => .error .json
  | some nodes => nodes.mapM NamespaceNode.parse

end ApiTypings
