import ApiTypings.Proofs.ParsedMembers
/-!
# The nodes that a schema is read at

A raw node is reached from a namespace by going down from node to node (`NamespaceNode.Reaches`):
every step takes a level, and members, parameters, completion callbacks and results add a segment to
the path.

Main statement: a place that parsing comes to is one at which a node is reached, and the levels that
are left are those that its depth leaves (`NamespaceNode.Located`). Going down keeps this
(`NamespaceNode.Located.below`).
-/

namespace ApiTypings

/-- What is in a list that may be absent is in the list. -/
theorem exists_of_mem_getD {α : Type} {xs? : Option (List α)} {x : α} (h : x ∈ xs?.getD []) :
    ∃ xs, xs? = some xs ∧ x ∈ xs := by
  cases xs? with
  | none => cases h
  | some xs => exact ⟨xs, rfl, h⟩

/-! ### Walking down a schema -/

/-- What a node is of the node or the namespace around it. -/
inductive NodeRole
  | type
  | function
  | event
  /-- The completion callback of a function. -/
  | callback
  deriving DecidableEq, Repr

/-- A node stands directly below another, in a role, and with a segment that its path has more. -/
inductive Node.Child (n : Node) : NodeRole → Option String → Node → Prop
  | choice {items : List Node} {m : Node} : n.choices = some items → m ∈ items →
    Child n .type none m
  | item {m : Node} : n.items = some m → Child n .type none m
  | additional {m : Node} : n.additionalProperties = some m → Child n .type none m
  | setting {name schema : Json.Value} {m : Node} : n.value = some (.array [name, schema]) →
    Node.read schema = some m → Child n .type none m
  | property {nodes : List (String × Node)} {key : String} {m : Node} : n.properties = some nodes →
    (key, m) ∈ nodes → Child n .type (some key) m
  | function {nodes : List Node} {name : String} {m : Node} : n.functions = some nodes → m ∈ nodes →
    m.name = some name → Child n .function (some name) m
  | event {nodes : List Node} {name : String} {m : Node} : n.events = some nodes → m ∈ nodes →
    m.name = some name → Child n .event (some name) m
  | parameter {nodes : List Node} {name : String} {m : Node} : n.parameters = some nodes →
    m ∈ nodes → m.name = some name → Child n .type (some name) m
  | result {m : Node} : n.returns = some m → Child n .type (some "return") m
  | callback {m : Node} : n.returnsAsync = some m →
    Child n .callback (some (m.name.getD "callback")) m

/-- The path with a segment more, if there is one. -/
def extendPath (path : String) : Option String → String
  | none => path
  | some segment => member path segment

/-- A node is reached from a namespace in a role, at a path and a depth. -/
inductive NamespaceNode.Reaches (n : NamespaceNode) : NodeRole → Node → String → Nat → Prop
  | type {m : Node} {id : String} : m ∈ n.types → m.id = some id →
    Reaches n .type m (member (trim n.name) (n.localId id)) 1
  | property {key : String} {m : Node} : (key, m) ∈ n.properties →
    Reaches n .type m (member (trim n.name) key) 1
  | function {m : Node} {name : String} : m ∈ n.functions → m.name = some name →
    Reaches n .function m (member (trim n.name) name) 1
  | event {m : Node} {name : String} : m ∈ n.events → m.name = some name →
    Reaches n .event m (member (trim n.name) name) 1
  | child {role role' : NodeRole} {m m' : Node} {path : String} {depth : Nat}
    {segment : Option String} : Reaches n role m path depth → m.Child role' segment m' →
    Reaches n role' m' (extendPath path segment) (depth + 1)

/-! ### What a node is read as -/

/-- No key of a node tells its type. -/
structure Node.Untyped (n : Node) : Prop where
  choices : n.choices = none
  enumEntries : n.enumEntries = none
  target : n.target = none
  instanceOf : n.instanceOf = none
  value : ∀ v, n.value = some v → scalarLiteral? v = none
  kind : n.kind = none
  properties : n.properties = none
  items : n.items = none
  parameters : n.parameters = none

/-- What is known of the keys of a node that is read as this. -/
def Node.FormSays (n : Node) : Node.Form → Prop
  | .choices items => n.choices = some items
  | .reference target => n.target = some target
  | .kind word => (n.kind <|> inferredKind? n) = some word
  | .untyped => n.Untyped
  | _ => True

/-- No type is inferred if the keys that would tell one are absent. -/
theorem inferredKind?_eq_none {n : Node} (h : inferredKind? n = none) :
    n.properties = none ∧ n.items = none ∧ n.parameters = none := by
  unfold inferredKind? at h
  split at h
  · cases h
  · next hproperties =>
    split at h
    · cases h
    · next hitems =>
      split at h
      · cases h
      · next hparameters =>
        exact ⟨Option.not_isSome_iff_eq_none.1 hproperties, Option.not_isSome_iff_eq_none.1 hitems,
          Option.not_isSome_iff_eq_none.1 hparameters⟩

theorem Node.formSays (n : Node) : n.FormSays n.form := by
  unfold Node.form
  -- The keys are looked at one after the other.
  cases hchoices : n.choices with
  | some items => exact hchoices
  | none =>
    cases henum : n.enumEntries with
    | some entries => trivial
    | none =>
      cases htarget : n.target with
      | some target => exact htarget
      | none =>
        cases hinstance : n.instanceOf with
        | some target => trivial
        | none =>
          cases hvalue : n.value.bind scalarLiteral? with
          | some value => trivial
          | none =>
            cases hkind : n.kind <|> inferredKind? n with
            | some word => exact hkind
            | none =>
              cases hdeclared : n.kind with
              | some word =>
                rw [hdeclared] at hkind
                cases hkind
              | none =>
                rw [hdeclared] at hkind
                obtain ⟨hproperties, hitems, hparameters⟩ := inferredKind?_eq_none hkind
                exact ⟨hchoices, henum, htarget, hinstance, Option.bind_eq_none_iff.1 hvalue,
                  hdeclared, hproperties, hitems, hparameters⟩

/-! ### Where parsing comes to -/

/-- A node in this role can be read in this way. -/
inductive Place.Reading.Of : Place.Reading → NodeRole → Prop
  | type : Of .type .type
  | object : Of .object .type
  | functionType : Of .function .type
  | function : Of .function .function
  | event : Of .event .event
  | callback : Of .callback .callback

/-- How many levels are left, with that of the node itself. -/
def Place.levelsLeft (p : Place) : Nat :=
  match p.reading with
  | .type => p.room
  | _ => p.room + 1

namespace NamespaceNode

variable {n : NamespaceNode} {p q : Place} {m m' : Node} {path : String} {room depth : Nat}
variable {role role' : NodeRole} {reading : Place.Reading}

/-- A node is reached where the place is, and as many levels are left as its depth leaves. -/
def Located (n : NamespaceNode) (p : Place) : Prop :=
  ∃ role depth, n.Reaches role p.node p.path depth ∧ p.reading.Of role ∧
    maxNesting < depth + p.levelsLeft

open Place

/-- Nodes that are types directly below a node are reached below it. -/
theorem Located.types (segment : Option String) (hreach : n.Reaches role m path depth)
    (hroom : maxNesting ≤ depth + room) {nodes : List Node}
    (hchild : ∀ m' ∈ nodes, m.Child .type segment m')
    (hq : q ∈ Place.types (extendPath path segment) room nodes) : n.Located q := by
  obtain ⟨m', hm', rfl⟩ := List.mem_map.1 hq
  refine ⟨.type, depth + 1, hreach.child (hchild m' hm'), .type, ?_⟩
  show maxNesting < depth + 1 + room
  omega

/-- Nodes directly below a node that have names are reached below it. -/
theorem Located.named (hreach : n.Reaches role m path depth) (hof : reading.Of role')
    {nodes : Option (List Node)}
    (hroom : maxNesting < depth + 1 + levelsLeft ⟨reading, m, path, room⟩)
    (hchild : ∀ nodes', nodes = some nodes' → ∀ m' ∈ nodes', ∀ name, m'.name = some name →
      m.Child role' (some name) m')
    (hq : q ∈ Place.named reading path room (nodes.getD [])) : n.Located q := by
  obtain ⟨m', hm', hq⟩ := List.mem_filterMap.1 hq
  obtain ⟨name, hname, rfl⟩ := Option.map_eq_some_iff.1 hq
  obtain ⟨nodes, hnodes, hm'⟩ := exists_of_mem_getD hm'
  exact ⟨role', depth + 1, hreach.child (hchild nodes hnodes m' hm' name hname), hof, hroom⟩

/-- The parameters of a node and its result are reached below it. -/
theorem Located.signature (hreach : n.Reaches role m path depth) (hroom : maxNesting ≤ depth + room)
    (hq : q ∈ Place.named .type path room (m.parameters.getD []) ++ result path room m.returns) :
    n.Located q := by
  rcases List.mem_append.1 hq with hq | hq
  · refine Located.named hreach .type ?_ (fun nodes hnodes m' hm' name hname => ?_) hq
    · show maxNesting < depth + 1 + room
      omega
    · exact .parameter hnodes hm' hname
  · refine Located.types (some "return") hreach hroom (fun m' hm' => ?_) hq
    exact .result (Option.mem_toList.1 hm')

/-- The node is reached again as an object or a function. -/
theorem Located.again (hreach : n.Reaches .type m path depth) (hroom : maxNesting ≤ depth + room)
    (hof : reading.Of .type) (hlevels : levelsLeft ⟨reading, m, path, room⟩ = room + 1) :
    n.Located ⟨reading, m, path, room⟩ := by
  refine ⟨.type, depth, hreach, hof, ?_⟩
  rw [hlevels]
  omega

theorem Located.belowKind (hreach : n.Reaches .type m path depth)
    (hroom : maxNesting ≤ depth + room) {word : String}
    (hq : q ∈ m.belowKind path room word) : n.Located q := by
  unfold Node.belowKind at hq
  split at hq
  · refine Located.types none hreach hroom (fun m' hm' => ?_) hq
    exact .item (Option.mem_toList.1 hm')
  · obtain rfl := List.mem_singleton.1 hq
    exact .again hreach hroom .object rfl
  · obtain rfl := List.mem_singleton.1 hq
    exact .again hreach hroom .functionType rfl
  · cases hq

/-- The schema of a setting is the second part of the value. -/
theorem child_of_settingSchema? (h : m.settingSchema? = some m') : m.Child .type none m' := by
  unfold Node.settingSchema? at h
  split at h
  · next hvalue => exact .setting hvalue h
  · cases h

theorem Located.belowForm (hreach : n.Reaches .type m path depth)
    (hroom : maxNesting ≤ depth + room) (hq : q ∈ m.belowForm path room m.form) : n.Located q := by
  cases hform : m.form with
  | choices items =>
    rw [hform] at hq
    refine Located.types none hreach hroom (fun m' hm' => ?_) hq
    have hchoices := hform ▸ m.formSays
    exact .choice hchoices hm'
  | reference target =>
    rw [hform] at hq
    rcases List.mem_append.1 hq with hq | hq
    · refine Located.types none hreach hroom (fun m' hm' => ?_) hq
      exact child_of_settingSchema? (Option.mem_toList.1 hm')
    · split at hq
      · obtain rfl := List.mem_singleton.1 hq
        exact .again hreach hroom .object rfl
      · cases hq
  | kind word =>
    rw [hform] at hq
    exact .belowKind hreach hroom hq
  | enumeration entries =>
    rw [hform] at hq
    cases hq
  | host target =>
    rw [hform] at hq
    cases hq
  | literal value =>
    rw [hform] at hq
    cases hq
  | untyped =>
    rw [hform] at hq
    cases hq

/-- Properties are reached at their keys. -/
theorem Located.ownProperties (hreach : n.Reaches role m path depth)
    (hroom : maxNesting ≤ depth + room) (hq : q ∈ keyed path room m.ownProperties) :
    n.Located q := by
  obtain ⟨⟨key, m'⟩, hmem, rfl⟩ := List.mem_map.1 hq
  obtain ⟨nodes, hnodes, hmem⟩ := exists_of_mem_getD (List.mem_of_mem_filter hmem)
  refine ⟨.type, depth + 1, hreach.child (.property hnodes hmem), .type, ?_⟩
  show maxNesting < depth + 1 + room
  omega

/-- **Going down**: the places below a place at which a node is reached are such places. -/
theorem Located.below (h : n.Located p) (hq : q ∈ p.below) : n.Located q := by
  obtain ⟨role, depth, hreach, hof, hlevels⟩ := h
  obtain ⟨reading, m, path, room⟩ := p
  have hreach : n.Reaches role m path depth := hreach
  cases reading with
  | type =>
    cases hof
    cases room with
    | zero => cases hq
    | succ room =>
      have hroom : maxNesting < depth + (room + 1) := hlevels
      exact .belowForm hreach (by omega) hq
  | object =>
    cases hof
    have hroom : maxNesting < depth + (room + 1) := hlevels
    simp only [Place.below, List.mem_append] at hq
    rcases hq with ((hq | hq) | hq) | hq
    · exact .ownProperties hreach (by omega) hq
    · refine Located.named hreach .function ?_ (fun nodes hnodes m' hm' name hname => ?_) hq
      · show maxNesting < depth + 1 + (room - 1 + 1)
        omega
      · exact .function hnodes hm' hname
    · refine Located.named hreach .event ?_ (fun nodes hnodes m' hm' name hname => ?_) hq
      · show maxNesting < depth + 1 + (room - 1 + 1)
        omega
      · exact .event hnodes hm' hname
    · refine Located.types none hreach (by omega) (fun m' hm' => ?_) hq
      exact .additional (Option.mem_toList.1 hm')
  | function =>
    have hroom : maxNesting < depth + (room + 1) := hlevels
    rcases List.mem_append.1 hq with hq | hq
    · exact .signature hreach (by omega) hq
    · obtain ⟨m', hm', rfl⟩ := List.mem_map.1 hq
      refine ⟨.callback, depth + 1, hreach.child (.callback (Option.mem_toList.1 hm')), .callback,
        ?_⟩
      show maxNesting < depth + 1 + (room - 1 + 1)
      omega
  | event =>
    have hroom : maxNesting < depth + (room + 1) := hlevels
    rw [Place.below] at hq
    split at hq
    · cases hq
    · exact .signature hreach (by omega) hq
  | callback =>
    have hroom : maxNesting < depth + (room + 1) := hlevels
    refine Located.named hreach .type ?_ (fun nodes hnodes m' hm' name hname => ?_) hq
    · show maxNesting < depth + 1 + room
      omega
    · exact .parameter hnodes hm' hname

end NamespaceNode

end ApiTypings
