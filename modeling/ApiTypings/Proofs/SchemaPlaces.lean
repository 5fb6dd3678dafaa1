import ApiTypings.Schema.Parse
/-!
# The places of a schema

Parsing meets the nodes of a schema one inside the other, each at a path and with a number of levels
left, and reads it in one of five ways (`Place.Reading`). A `Place` is a node as it is met. What is parsed at
a place is made of what is parsed at the places below it (`Place.below`), and which these are is told
by the node alone: what a node is read as is decided by its first key that tells (`Node.form`).

The places below a place have a smaller rank (`Place.rank_lt`), so what holds of a place if it holds of
those below it holds of all places (`Place.induction`).
-/

namespace ApiTypings

/-! ### What a node is read as -/

/-- What the first key that tells makes of a node. -/
inductive Node.Form
  | choices (items : List Node)
  | enumeration (entries : List EnumEntry)
  | reference (target : String)
  | host (target : String)
  | literal (value : Literal)
  /-- The node declares this type, or it is inferred. -/
  | kind (word : String)
  | untyped

/-- What a node is read as. -/
def Node.form (n : Node) : Node.Form :=
  match n.choices, n.enumEntries, n.target, n.instanceOf, n.value.bind scalarLiteral? with
  | some items, _, _, _, _ => .choices items
  | _, some entries, _, _, _ => .enumeration entries
  | _, _, some target, _, _ => .reference target
  | _, _, _, some target, _ => .host target
  | _, _, _, _, some value => .literal value
  | _, _, _, _, none =>
    match n.kind <|> inferredKind? n with
    | some word => .kind word
    | none => .untyped

/-- Parses a node that is read as this. -/
def parseForm (below : Levels) (n : Node) (path : String) : Node.Form → Except SchemaError ApiType
  | .choices items => do return .choices (← items.mapM (below.first · path))
  | .enumeration entries => .ok (.choices (entries.map EnumEntry.toType))
  | .reference target => do
    let reference := .reference ⟨target, false, false⟩ (← parseSetting below n path)
    if n.properties.isSome then return .intersection [reference, ← parseObject below n path]
    return reference
  | .host target => .ok (.host target [])
  | .literal value => .ok (.literal value)
  | .kind word => parseKind below n path word
  | .untyped => .error (.missingType path)

/-- Parsing a node is parsing it as what it is read as. -/
theorem parseNode_eq (below : Levels) (n : Node) (path : String) :
    parseNode below n path = parseForm below n path n.form := by
  unfold parseNode Node.form
  -- The keys are looked at one after the other.
  cases n.choices with
  | some items => rfl
  | none =>
    cases n.enumEntries with
    | some entries => rfl
    | none =>
      cases n.target with
      | some target => rfl
      | none =>
        cases n.instanceOf with
        | some target => rfl
        | none =>
          cases n.value.bind scalarLiteral? with
          | some value => rfl
          | none => cases n.kind <|> inferredKind? n <;> rfl

/-- The schema of the value of a setting, if the node gives one that is well-typed. -/
def Node.settingSchema? (n : Node) : Option Node :=
  match n.value with
  | some (.array [_, schema]) => Node.read schema
  | _ => none

/-! ### Levels -/

theorem levels_second (room : Nat) : (levels room).second = (levels (room - 1)).first := by
  cases room <;> rfl

theorem levels_third (room : Nat) : (levels room).third = (levels (room - 1)).second := by
  cases room <;> rfl

/-! ### Places -/

/-- The ways in which a node is read. -/
inductive Place.Reading
  | type
  | object
  | function
  | event
  /-- A completion callback, of which only the parameters are read. -/
  | callback
  deriving DecidableEq, Repr

/-- A node as it is met when a schema is parsed. -/
structure Place where
  reading : Place.Reading
  node : Node
  path : String
  /-- How many levels are left: with the node itself if it is read as a type, and without it if not. -/
  room : Nat

namespace Place

/-- The type that is parsed at a place. -/
def parse (p : Place) : Except SchemaError ApiType :=
  match p.reading with
  | .type => (levels p.room).first p.node p.path
  | .object => parseObject (levels p.room) p.node p.path
  | .function => parseFunction (levels p.room).first (levels p.room).second p.node p.path
  | .event => parseEvent (levels p.room).first p.node p.path
  | .callback => do
    let parameters ← parseParameters (levels p.room).first p.path p.node.parameters
    return .function parameters none none false

/-- Nodes that are types, all at one path. -/
def types (path : String) (room : Nat) (nodes : List Node) : List Place :=
  nodes.map fun n => ⟨.type, n, path, room⟩

/-- Nodes that are members or parameters by their own names. -/
def named (reading : Reading) (path : String) (room : Nat) (nodes : List Node) : List Place :=
  nodes.filterMap fun n => n.name.map fun name => ⟨reading, n, member path name, room⟩

/-- Nodes that are members by the keys that they stand at. -/
def keyed (path : String) (room : Nat) (nodes : List (String × Node)) : List Place :=
  nodes.map fun n => ⟨.type, n.2, member path n.1, room⟩

/-- The completion callback of a function, which takes a level of its own. -/
def callbackAt (path : String) (room : Nat) (n : Node) : Place :=
  ⟨.callback, n, member path (n.name.getD defaultCallbackName), room - 1⟩

/-- The result of a function or an event. -/
def result (path : String) (room : Nat) (node : Option Node) : List Place :=
  types (member path Property.returnName) room node.toList

end Place

namespace Node

/-- The properties of an object. What gives it an instance type is none of them. -/
def ownProperties (n : Node) : List (String × Node) :=
  (n.properties.getD []).filter fun p => (instanceTypeName? p.1 p.2).isNone

/-- The places below a node that declares its type or is inferred to have it. -/
def belowKind (n : Node) (path : String) (room : Nat) : String → List Place
  | "array" => Place.types path room n.items.toList
  | "object" => [⟨.object, n, path, room⟩]
  | "function" => [⟨.function, n, path, room⟩]
  | _ => []

/-- The places below a node that is read as a type. -/
def belowForm (n : Node) (path : String) (room : Nat) : Node.Form → List Place
  | .choices items => Place.types path room items
  | .reference _ =>
    Place.types path room n.settingSchema?.toList
      ++ if n.properties.isSome then [⟨.object, n, path, room⟩] else []
  | .kind word => n.belowKind path room word
  | .enumeration _ => []
  | .host _ => []
  | .literal _ => []
  | .untyped => []

end Node

namespace Place

/-- The places below a place, in the order in which they are parsed. A function or an event inside an
object takes a level of its own. -/
def below : Place → List Place
  | ⟨.type, _, _, 0⟩ => []
  | ⟨.type, n, path, room + 1⟩ => n.belowForm path room n.form
  | ⟨.object, n, path, room⟩ =>
    keyed path room n.ownProperties ++ named .function path (room - 1) (n.functions.getD [])
      ++ named .event path (room - 1) (n.events.getD []) ++ types path room n.additionalProperties.toList
  | ⟨.function, n, path, room⟩ =>
    named .type path room (n.parameters.getD []) ++ result path room n.returns
      ++ n.returnsAsync.toList.map (callbackAt path room)
  | ⟨.event, n, path, room⟩ =>
    if (n.options.getD {}).supportsListeners = some false then []
    else named .type path room (n.parameters.getD []) ++ result path room n.returns
  | ⟨.callback, n, path, room⟩ => named .type path room (n.parameters.getD [])

/-! ### Ranks -/

/-- A measure that becomes smaller from a place to those below it. -/
def rank (p : Place) : Nat :=
  4 * p.room + match p.reading with
    | .type => 0
    | .callback => 1
    | .function => 2
    | .event => 2
    | .object => 3

variable {p q : Place} {n : Node} {path : String} {room : Nat}

theorem rank_of_mem_types {nodes : List Node} (h : q ∈ types path room nodes) :
    q.rank = 4 * room := by
  obtain ⟨n, -, rfl⟩ := List.mem_map.1 h
  rfl

theorem rank_of_mem_keyed {nodes : List (String × Node)} (h : q ∈ keyed path room nodes) :
    q.rank = 4 * room := by
  obtain ⟨n, -, rfl⟩ := List.mem_map.1 h
  rfl

theorem reading_of_mem_named {reading : Reading} {nodes : List Node}
    (h : q ∈ named reading path room nodes) : q.reading = reading ∧ q.room = room := by
  obtain ⟨n, -, hq⟩ := List.mem_filterMap.1 h
  obtain ⟨name, -, rfl⟩ := Option.map_eq_some_iff.1 hq
  exact ⟨rfl, rfl⟩

theorem rank_of_mem_named {reading : Reading} {nodes : List Node}
    (h : q ∈ named reading path room nodes) : q.rank = rank ⟨reading, q.node, q.path, room⟩ := by
  obtain ⟨rfl, rfl⟩ := reading_of_mem_named h
  rfl

theorem rank_le_of_mem_belowForm {form : Node.Form} (h : q ∈ n.belowForm path room form) :
    q.rank ≤ 4 * room + 3 := by
  have htypes : ∀ nodes, q ∈ types path room nodes → q.rank ≤ 4 * room + 3 := fun nodes hq =>
    rank_of_mem_types hq ▸ Nat.le_add_right _ 3
  cases form with
  | choices items => exact htypes items h
  | reference target =>
    rcases List.mem_append.1 h with h | h
    · exact htypes _ h
    · split at h
      · rw [List.mem_singleton.1 h]
        exact Nat.le_refl _
      · cases h
  | kind word =>
    have h : q ∈ n.belowKind path room word := h
    unfold Node.belowKind at h
    split at h
    · exact htypes _ h
    · rw [List.mem_singleton.1 h]
      exact Nat.le_refl _
    · rw [List.mem_singleton.1 h]
      exact Nat.le_succ _
    · cases h
  | enumeration entries => cases h
  | host target => cases h
  | literal value => cases h
  | untyped => cases h

theorem rank_of_mem_function {parameters : List Node} {returns : Option Node}
    (h : q ∈ named .type path room parameters ++ result path room returns) : q.rank = 4 * room := by
  rcases List.mem_append.1 h with h | h
  · exact rank_of_mem_named h
  · exact rank_of_mem_types h

/-- **The places below a place** have a smaller rank. -/
theorem rank_lt (h : q ∈ p.below) : q.rank < p.rank := by
  obtain ⟨reading, n, path, room⟩ := p
  cases reading with
  | type =>
    cases room with
    | zero => cases h
    | succ room => exact Nat.lt_succ_of_le (rank_le_of_mem_belowForm h)
  | object =>
    simp only [below, List.mem_append] at h
    have hrank : rank ⟨.object, n, path, room⟩ = 4 * room + 3 := rfl
    rcases h with ((h | h) | h) | h
    · rw [rank_of_mem_keyed h, hrank]
      omega
    · have hq : q.rank = 4 * (room - 1) + 2 := rank_of_mem_named h
      omega
    · have hq : q.rank = 4 * (room - 1) + 2 := rank_of_mem_named h
      omega
    · rw [rank_of_mem_types h, hrank]
      omega
  | function =>
    rcases List.mem_append.1 h with h | h
    · rw [rank_of_mem_function h]
      exact Nat.lt_add_of_pos_right (Nat.zero_lt_succ 1)
    · obtain ⟨callback, -, rfl⟩ := List.mem_map.1 h
      show 4 * (room - 1) + 1 < 4 * room + 2
      omega
  | event =>
    rw [below] at h
    split at h
    · cases h
    · rw [rank_of_mem_function h]
      exact Nat.lt_add_of_pos_right (Nat.zero_lt_succ 1)
  | callback =>
    rw [show q.rank = 4 * room from rank_of_mem_named h]
    exact Nat.lt_succ_self _

/-- What holds of a place if it holds of those below it holds of all places. -/
theorem induction {motive : Place → Prop}
    (step : ∀ p : Place, (∀ q ∈ p.below, motive q) → motive p) (p : Place) : motive p := by
  induction hrank : p.rank using Nat.strongRecOn generalizing p with
  | ind rank ih =>
    subst hrank
    exact step p fun q hq => ih q.rank (rank_lt hq) q rfl

end Place

end ApiTypings
