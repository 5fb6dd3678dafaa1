import ApiTypings.Json.Fields
/-!
# Schema nodes

A schema file holds one namespace or a list of them. Everything below a namespace is a `Node`:
types, properties, parameters, functions and events are written with the same keys, and which of
them a node uses depends on its place. A `Node` is typed but not interpreted.

**Reading.** A value that stands somewhere in a schema can be asked for as a node, as a list of
nodes or as a map of nodes. `Node.view` computes these three readings of a value from those of its
parts, so a node is read by one recursion over the value (`Node.read`).
-/

namespace ApiTypings

/-! ### Nodes -/

/-- An entry of an `enum` list: a name, a number, or a name with a description. -/
inductive EnumEntry
  | name (name : String)
  | number (value : Json.Number)
  | described (name : String) (description : Option String)
  deriving DecidableEq, Repr, Inhabited

/-- The `options` of an event. -/
structure EventOptions where
  supportsListeners : Option Bool := none
  conditions : Option (List String) := none
  actions : Option (List String) := none
  deriving DecidableEq, Repr, Inhabited

/-- A node of a schema, as it is written. -/
structure Node where
  id : Option String := none
  name : Option String := none
  kind : Option String := none
  target : Option String := none
  choices : Option (List Node) := none
  enumEntries : Option (List EnumEntry) := none
  instanceOf : Option String := none
  value : Option Json.Value := none
  items : Option Node := none
  minItems : Option Nat := none
  maxItems : Option Nat := none
  minimum : Option Double := none
  maximum : Option Double := none
  properties : Option (List (String × Node)) := none
  additionalProperties : Option Node := none
  functions : Option (List Node) := none
  events : Option (List Node) := none
  parameters : Option (List Node) := none
  returns : Option Node := none
  returnsAsync : Option Node := none
  doesNotSupportPromises : Option String := none
  options : Option EventOptions := none
  optional : Bool := false
  nodoc : Bool := false
  deprecated : Option String := none
  description : Option String := none
  deriving Repr, Inhabited

/-! ### Reading the leaves -/

open Json Json.Reader in
/-- Reads an entry of an `enum` list. -/
def EnumEntry.read : Reader EnumEntry
  | .string s => some (.name s)
  | .number n => some (.number n)
  | .object fields => do
    let name ← (fields.lookup "name").bind string
    let description ← field? fields "description" string
    return .described name description
  | _ => none

open Json Json.Reader in
/-- Reads the `options` of an event. -/
def EventOptions.read : Reader EventOptions := fun v => do
  let fields ← fields? ["supportsListeners", "conditions", "actions"] v
  return {
    supportsListeners := ← field? fields "supportsListeners" bool
    conditions := ← field? fields "conditions" strings
    actions := ← field? fields "actions" strings }

/-! ### Reading nodes -/

namespace Node

/-- The readings of a value: as it is, as a node, as a list of nodes, as a map of nodes. -/
structure View where
  value : Json.Value
  node : Option Node
  nodes : Option (List Node)
  map : Option (List (String × Node))

/-- A reading of a value that may be absent. -/
def View.optional {α : Type} (w : View) (reading : Option α) : Option (Option α) :=
  match w.value with
  | .null => some none
  | _ => reading.map some

/-- The keys of a node, in their order. -/
def keys : List String :=
  ["id", "name", "type", "$ref", "choices", "enum", "isInstanceOf", "value", "items", "minItems",
    "maxItems", "minimum", "maximum", "properties", "additionalProperties", "functions", "events",
    "parameters", "returns", "returns_async", "does_not_support_promises", "options", "optional",
    "nodoc", "deprecated", "description"]

open Json in
/-- The node with one more field; a key that is not one of a node's is passed over. -/
def setField? (n : Node) (key : String) (w : View) : Option Node :=
  let string := w.optional (Reader.string w.value)
  let node := w.optional w.node
  let nodes := w.optional w.nodes
  match key with
  | "id" => string.map fun x => { n with id := x }
  | "name" => string.map fun x => { n with name := x }
  | "type" => string.map fun x => { n with kind := x }
  | "$ref" => string.map fun x => { n with target := x }
  | "choices" => nodes.map fun x => { n with choices := x }
  | "enum" => (w.optional (Reader.list EnumEntry.read w.value)).map fun x => { n with enumEntries := x }
  | "isInstanceOf" => string.map fun x => { n with instanceOf := x }
  | "value" => (w.optional (some w.value)).map fun x => { n with value := x }
  | "items" => node.map fun x => { n with items := x }
  | "minItems" => (w.optional (Reader.nat64 w.value)).map fun x => { n with minItems := x }
  | "maxItems" => (w.optional (Reader.nat64 w.value)).map fun x => { n with maxItems := x }
  | "minimum" => (w.optional (Reader.double w.value)).map fun x => { n with minimum := x }
  | "maximum" => (w.optional (Reader.double w.value)).map fun x => { n with maximum := x }
  | "properties" => (w.optional w.map).map fun x => { n with properties := x }
  | "additionalProperties" => node.map fun x => { n with additionalProperties := x }
  | "functions" => nodes.map fun x => { n with functions := x }
  | "events" => nodes.map fun x => { n with events := x }
  | "parameters" => nodes.map fun x => { n with parameters := x }
  | "returns" => node.map fun x => { n with returns := x }
  | "returns_async" => node.map fun x => { n with returnsAsync := x }
  | "does_not_support_promises" => string.map fun x => { n with doesNotSupportPromises := x }
  | "options" => (w.optional (EventOptions.read w.value)).map fun x => { n with options := x }
  | "optional" => (Reader.bool w.value).map fun x => { n with optional := x }
  | "nodoc" => (Reader.bool w.value).map fun x => { n with nodoc := x }
  | "deprecated" => string.map fun x => { n with deprecated := x }
  | "description" => string.map fun x => { n with description := x }
  | _ => some n

/-- The node with these fields. -/
def ofFields? (fields : List (String × View)) : Option Node :=
  fields.foldlM (fun n f => n.setField? f.1 f.2) {}

mutual

/-- The readings of a value. -/
def view : Json.Value → View
  | .array items =>
    let ws := viewItems items
    { value := .array items
      node := if ws.length ≤ keys.length then ofFields? (keys.zip ws) else none
      nodes := ws.mapM View.node
      map := none }
  | .object members =>
    let ws := viewMembers members
    { value := .object members
      node := ofFields? ws
      nodes := none
      map := ws.mapM fun w => w.2.node.map fun n => (w.1, n) }
  | .null => ⟨.null, none, none, none⟩
  | .bool b => ⟨.bool b, none, none, none⟩
  | .number n => ⟨.number n, none, none, none⟩
  | .string s => ⟨.string s, none, none, none⟩

/-- The readings of the items of an array. -/
def viewItems : List Json.Value → List View
  | [] => []
  | v :: vs => view v :: viewItems vs

/-- The readings of the members of an object. -/
def viewMembers : List (String × Json.Value) → List (String × View)
  | [] => []
  | (k, v) :: vs => (k, view v) :: viewMembers vs

end

/-- Reads a node. -/
def read : Json.Reader Node := fun v =>
  (view v).node

end Node

/-! ### Namespaces -/

/-- A namespace of a schema, as it is written. -/
structure NamespaceNode where
  name : String
  description : Option String := none
  deprecated : Option String := none
  nodoc : Bool := false
  types : List Node := []
  properties : List (String × Node) := []
  functions : List Node := []
  events : List Node := []
  deriving Repr, Inhabited

namespace NamespaceNode

/-- The keys of a namespace, in their order. -/
def keys : List String :=
  ["namespace", "description", "deprecated", "nodoc", "types", "properties", "functions", "events"]

open Json Json.Reader in
/-- Reads a namespace. Only its name may not be missing. -/
def read : Reader NamespaceNode := fun v => do
  let fields ← fields? keys v
  let nodes : Reader (List Node) := fun v => (Node.view v).nodes
  return {
    name := ← (fields.lookup "namespace").bind string
    description := ← field? fields "description" string
    deprecated := ← field? fields "deprecated" string
    nodoc := ← fieldOr fields "nodoc" false bool
    types := ← fieldOr fields "types" [] nodes
    properties := ← fieldOr fields "properties" [] fun v => (Node.view v).map
    functions := ← fieldOr fields "functions" [] nodes
    events := ← fieldOr fields "events" [] nodes }

/-- Reads the value of a schema file: a list of namespaces if it is an array, and one namespace if
it is not. -/
def readFile : Json.Reader (List NamespaceNode)
  | .array vs => vs.mapM read
  | v => (read v).map ([·])

end NamespaceNode

end ApiTypings
