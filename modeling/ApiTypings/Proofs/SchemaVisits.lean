import ApiTypings.Proofs.BlamedNodes
/-!
# What is read of a schema, and how deep it lies

When a schema is parsed, its nodes are visited one inside the other, each at a depth: 1 for the members
of a namespace, and one more from a node to the nodes inside it. `Visit.Leads` says which visits a
visit leads to, however deep it lies, and `NamespaceNode.Meets` what is met in this way.

A visit is refused if its node is read as a type and lies too deep (`Visit.Refused`). As long as none
is, the visits are the places that parsing comes to (`Visit.Leads.exists_mem_below`,
`Visit.exists_leads_of_mem_below`). Hence

* everything that is met in a namespace that can be parsed is parsed, so nothing is refused
  (`NamespaceNode.Meets.not_refused`);
* if a namespace cannot be parsed for its nesting, something that is met is refused
  (`NamespaceNode.exists_refused`).
-/

namespace ApiTypings

/-- A node that is read in some way, at a depth. -/
structure Visit where
  reading : Place.Reading
  node : Node
  depth : Nat

namespace Visit

variable {v w : Visit} {n m : Node} {d : Nat} {path : String}

/-- A visit leads to another: the same node is read in another way, or a node one level below it. -/
inductive Leads : Visit → Visit → Prop
  | choice {n m : Node} {d : Nat} {items : List Node} : n.form = .choices items → m ∈ items →
    Leads ⟨.type, n, d⟩ ⟨.type, m, d + 1⟩
  | setting {n m : Node} {d : Nat} {target : String} : n.form = .reference target →
    n.settingSchema? = some m → Leads ⟨.type, n, d⟩ ⟨.type, m, d + 1⟩
  | extended {n : Node} {d : Nat} {target : String} : n.form = .reference target →
    n.properties.isSome = true → Leads ⟨.type, n, d⟩ ⟨.object, n, d⟩
  | element {n m : Node} {d : Nat} : n.form = .kind "array" → n.items = some m →
    Leads ⟨.type, n, d⟩ ⟨.type, m, d + 1⟩
  | object {n : Node} {d : Nat} : n.form = .kind "object" → Leads ⟨.type, n, d⟩ ⟨.object, n, d⟩
  | function {n : Node} {d : Nat} : n.form = .kind "function" →
    Leads ⟨.type, n, d⟩ ⟨.function, n, d⟩
  | property {n m : Node} {d : Nat} {key : String} : (key, m) ∈ n.ownProperties →
    Leads ⟨.object, n, d⟩ ⟨.type, m, d + 1⟩
  | method {n m : Node} {d : Nat} {name : String} : m ∈ n.functions.getD [] → m.name = some name →
    Leads ⟨.object, n, d⟩ ⟨.function, m, d + 1⟩
  | event {n m : Node} {d : Nat} {name : String} : m ∈ n.events.getD [] → m.name = some name →
    Leads ⟨.object, n, d⟩ ⟨.event, m, d + 1⟩
  | additional {n m : Node} {d : Nat} : n.additionalProperties = some m →
    Leads ⟨.object, n, d⟩ ⟨.type, m, d + 1⟩
  | parameter {n m : Node} {d : Nat} {name : String} : m ∈ n.parameters.getD [] →
    m.name = some name → Leads ⟨.function, n, d⟩ ⟨.type, m, d + 1⟩
  | result {n m : Node} {d : Nat} : n.returns = some m → Leads ⟨.function, n, d⟩ ⟨.type, m, d + 1⟩
  | callback {n m : Node} {d : Nat} : n.returnsAsync = some m →
    Leads ⟨.function, n, d⟩ ⟨.callback, m, d + 1⟩
  | listenerParameter {n m : Node} {d : Nat} {name : String} :
    (n.options.getD {}).supportsListeners ≠ some false → m ∈ n.parameters.getD [] →
    m.name = some name → Leads ⟨.event, n, d⟩ ⟨.type, m, d + 1⟩
  | listenerResult {n m : Node} {d : Nat} :
    (n.options.getD {}).supportsListeners ≠ some false → n.returns = some m →
    Leads ⟨.event, n, d⟩ ⟨.type, m, d + 1⟩
  | callbackParameter {n m : Node} {d : Nat} {name : String} : m ∈ n.parameters.getD [] →
    m.name = some name → Leads ⟨.callback, n, d⟩ ⟨.type, m, d + 1⟩

/-- The visit does not pass the guard. -/
def Refused (v : Visit) : Prop :=
  v.reading = .type ∧ maxNesting < v.depth

/-! ### Places -/

/-- How many levels are left at a visit. -/
def room (v : Visit) : Nat :=
  match v.reading with
  | .type => maxNesting + 1 - v.depth
  | _ => maxNesting - v.depth

/-- The place where a visit is made. -/
def place (v : Visit) (path : String) : Place :=
  ⟨v.reading, v.node, path, v.room⟩

theorem room_type (n : Node) (d : Nat) : room ⟨.type, n, d + 1⟩ = maxNesting - d :=
  Nat.add_sub_add_right ..

/-- At a visit that passes the guard there is a level for the node itself. -/
theorem below_type (h : ¬Refused ⟨.type, n, d⟩) :
    (place ⟨.type, n, d⟩ path).below = n.belowForm path (maxNesting - d) n.form := by
  have hd : d ≤ maxNesting := Nat.not_lt.1 fun hd => h ⟨rfl, hd⟩
  have hroom : room ⟨.type, n, d⟩ = (maxNesting - d) + 1 := Nat.succ_sub hd
  rw [place, hroom]
  rfl

/-- At a refused visit there is no level left. -/
theorem place_of_refused (h : v.Refused) (path : String) :
    v.place path = ⟨.type, v.node, path, 0⟩ := by
  obtain ⟨reading, n, d⟩ := v
  obtain ⟨rfl, hd⟩ := h
  have hroom : room ⟨.type, n, d⟩ = 0 := Nat.sub_eq_zero_of_le hd
  rw [place, hroom]

section

variable {q : Place}

theorem mem_types_iff {nodes : List Node} : q ∈ Place.types path (maxNesting - d) nodes ↔
    ∃ m ∈ nodes, q = place ⟨.type, m, d + 1⟩ path := by
  simp only [Place.types, List.mem_map, place, room_type, eq_comm]

theorem mem_keyed_iff {nodes : List (String × Node)} :
    q ∈ Place.keyed path (maxNesting - d) nodes ↔
      ∃ key m, (key, m) ∈ nodes ∧ q = place ⟨.type, m, d + 1⟩ (member path key) := by
  simp only [Place.keyed, List.mem_map, place, room_type, eq_comm, Prod.exists]

theorem mem_named_iff {reading : Place.Reading} {r : Nat}
    (hroom : ∀ m, room ⟨reading, m, d + 1⟩ = r) {nodes : List Node} :
    q ∈ Place.named reading path r nodes ↔
      ∃ m ∈ nodes, ∃ name, m.name = some name ∧
        q = place ⟨reading, m, d + 1⟩ (member path name) := by
  simp only [Place.named, List.mem_filterMap, Option.map_eq_some_iff, place, hroom,
    @eq_comm Place q]

theorem mem_below_object : q ∈ (place ⟨.object, n, d⟩ path).below ↔
    (((∃ key m, (key, m) ∈ n.ownProperties ∧ q = place ⟨.type, m, d + 1⟩ (member path key)) ∨
      ∃ m ∈ n.functions.getD [], ∃ name, m.name = some name ∧
        q = place ⟨.function, m, d + 1⟩ (member path name)) ∨
      ∃ m ∈ n.events.getD [], ∃ name, m.name = some name ∧
        q = place ⟨.event, m, d + 1⟩ (member path name)) ∨
      ∃ m, n.additionalProperties = some m ∧ q = place ⟨.type, m, d + 1⟩ path := by
  show q ∈ Place.keyed path (maxNesting - d) _ ++ Place.named .function path (maxNesting - d - 1) _
    ++ Place.named .event path (maxNesting - d - 1) _ ++ Place.types path (maxNesting - d) _ ↔ _
  rw [List.mem_append, List.mem_append, List.mem_append, mem_keyed_iff, mem_types_iff,
    mem_named_iff (d := d) fun _ => rfl, mem_named_iff (d := d) fun _ => rfl]
  simp only [Option.mem_toList]

theorem mem_signature_iff : q ∈ Place.named .type path (maxNesting - d) (n.parameters.getD [])
      ++ Place.result path (maxNesting - d) n.returns ↔
    (∃ m ∈ n.parameters.getD [], ∃ name, m.name = some name ∧
      q = place ⟨.type, m, d + 1⟩ (member path name)) ∨
      ∃ m, n.returns = some m ∧
        q = place ⟨.type, m, d + 1⟩ (member path Property.returnName) := by
  rw [List.mem_append, Place.result, mem_types_iff, mem_named_iff fun m => room_type m d]
  simp only [Option.mem_toList]

theorem mem_below_function : q ∈ (place ⟨.function, n, d⟩ path).below ↔
    ((∃ m ∈ n.parameters.getD [], ∃ name, m.name = some name ∧
      q = place ⟨.type, m, d + 1⟩ (member path name)) ∨
      ∃ m, n.returns = some m ∧
        q = place ⟨.type, m, d + 1⟩ (member path Property.returnName)) ∨
      ∃ m, n.returnsAsync = some m ∧
        q = place ⟨.callback, m, d + 1⟩ (member path (m.name.getD defaultCallbackName)) := by
  refine List.mem_append.trans (or_congr mem_signature_iff ?_)
  rw [List.mem_map]
  simp only [Option.mem_toList, @eq_comm Place _ q]
  rfl

theorem mem_below_event : q ∈ (place ⟨.event, n, d⟩ path).below ↔
    (n.options.getD {}).supportsListeners ≠ some false ∧
      ((∃ m ∈ n.parameters.getD [], ∃ name, m.name = some name ∧
        q = place ⟨.type, m, d + 1⟩ (member path name)) ∨
        ∃ m, n.returns = some m ∧
          q = place ⟨.type, m, d + 1⟩ (member path Property.returnName)) := by
  rw [place, Place.below]
  split
  · next h => exact iff_of_false List.not_mem_nil fun hnot => hnot.1 h
  · next h => exact mem_signature_iff.trans (and_iff_right h).symm

theorem mem_below_callback : q ∈ (place ⟨.callback, n, d⟩ path).below ↔
    ∃ m ∈ n.parameters.getD [], ∃ name, m.name = some name ∧
      q = place ⟨.type, m, d + 1⟩ (member path name) :=
  mem_named_iff fun m => room_type m d

end

/-- **A visit that passes the guard** leads on to places below its own. -/
theorem Leads.exists_mem_below (h : v.Leads w) (hv : ¬v.Refused) (path : String) :
    ∃ path', w.place path' ∈ (v.place path).below := by
  cases h with
  | choice hform hm =>
    rw [below_type hv, hform]
    exact ⟨path, mem_types_iff.2 ⟨_, hm, rfl⟩⟩
  | setting hform hm =>
    rw [below_type hv, hform]
    exact ⟨path, List.mem_append_left _ (mem_types_iff.2 ⟨_, Option.mem_toList.2 hm, rfl⟩)⟩
  | extended hform hproperties =>
    rw [below_type hv, hform]
    refine ⟨path, List.mem_append_right _ ?_⟩
    rw [if_pos hproperties]
    exact List.mem_singleton_self _
  | element hform hm =>
    rw [below_type hv, hform]
    exact ⟨path, mem_types_iff.2 ⟨_, Option.mem_toList.2 hm, rfl⟩⟩
  | object hform =>
    rw [below_type hv, hform]
    exact ⟨path, List.mem_singleton_self _⟩
  | function hform =>
    rw [below_type hv, hform]
    exact ⟨path, List.mem_singleton_self _⟩
  | property hm => exact ⟨_, mem_below_object.2 (.inl (.inl (.inl ⟨_, _, hm, rfl⟩)))⟩
  | method hm hname => exact ⟨_, mem_below_object.2 (.inl (.inl (.inr ⟨_, hm, _, hname, rfl⟩)))⟩
  | event hm hname => exact ⟨_, mem_below_object.2 (.inl (.inr ⟨_, hm, _, hname, rfl⟩))⟩
  | additional hm => exact ⟨_, mem_below_object.2 (.inr ⟨_, hm, rfl⟩)⟩
  | parameter hm hname => exact ⟨_, mem_below_function.2 (.inl (.inl ⟨_, hm, _, hname, rfl⟩))⟩
  | result hm => exact ⟨_, mem_below_function.2 (.inl (.inr ⟨_, hm, rfl⟩))⟩
  | callback hm => exact ⟨_, mem_below_function.2 (.inr ⟨_, hm, rfl⟩)⟩
  | listenerParameter hlisteners hm hname =>
    exact ⟨_, mem_below_event.2 ⟨hlisteners, .inl ⟨_, hm, _, hname, rfl⟩⟩⟩
  | listenerResult hlisteners hm =>
    exact ⟨_, mem_below_event.2 ⟨hlisteners, .inr ⟨_, hm, rfl⟩⟩⟩
  | callbackParameter hm hname => exact ⟨_, mem_below_callback.2 ⟨_, hm, _, hname, rfl⟩⟩

theorem exists_leads_of_mem_belowForm {q : Place}
    (hq : q ∈ n.belowForm path (maxNesting - d) n.form) :
    ∃ w path', Leads ⟨.type, n, d⟩ w ∧ q = w.place path' := by
  cases hform : n.form with
  | choices items =>
    rw [hform] at hq
    obtain ⟨m, hm, rfl⟩ := mem_types_iff.1 hq
    exact ⟨_, _, .choice hform hm, rfl⟩
  | reference target =>
    rw [hform] at hq
    rcases List.mem_append.1 hq with hq | hq
    · obtain ⟨m, hm, rfl⟩ := mem_types_iff.1 hq
      exact ⟨_, _, .setting hform (Option.mem_toList.1 hm), rfl⟩
    · split at hq
      · next hproperties =>
        exact ⟨_, path, .extended hform hproperties, List.mem_singleton.1 hq⟩
      · cases hq
  | kind word =>
    rw [hform] at hq
    have hq : q ∈ n.belowKind path (maxNesting - d) word := hq
    unfold Node.belowKind at hq
    split at hq
    · obtain ⟨m, hm, rfl⟩ := mem_types_iff.1 hq
      exact ⟨_, _, .element hform (Option.mem_toList.1 hm), rfl⟩
    · exact ⟨_, path, .object hform, List.mem_singleton.1 hq⟩
    · exact ⟨_, path, .function hform, List.mem_singleton.1 hq⟩
    · cases hq
  | enumeration entries =>
    rw [hform] at hq
    cases hq
  | host target =>
    rw [hform] at hq
    cases hq
  | literal value =>
    rw [hform] at hq
    cases hq
  | untyped =>
    rw [hform] at hq
    cases hq

/-- **The places below a visit** are those of visits that it leads to. -/
theorem exists_leads_of_mem_below {q : Place} (hq : q ∈ (v.place path).below) :
    ¬v.Refused ∧ ∃ w path', v.Leads w ∧ q = w.place path' := by
  have hv : ¬v.Refused := fun hv => by
    rw [place_of_refused hv] at hq
    cases hq
  refine ⟨hv, ?_⟩
  obtain ⟨reading, n, d⟩ := v
  cases reading with
  | type =>
    rw [below_type hv] at hq
    exact exists_leads_of_mem_belowForm hq
  | object =>
    rcases mem_below_object.1 hq with
      ((⟨_, _, hm, rfl⟩ | ⟨_, hm, _, hname, rfl⟩) | ⟨_, hm, _, hname, rfl⟩) | ⟨_, hm, rfl⟩
    · exact ⟨_, _, .property hm, rfl⟩
    · exact ⟨_, _, .method hm hname, rfl⟩
    · exact ⟨_, _, .event hm hname, rfl⟩
    · exact ⟨_, _, .additional hm, rfl⟩
  | function =>
    rcases mem_below_function.1 hq with
      (⟨_, hm, _, hname, rfl⟩ | ⟨_, hm, rfl⟩) | ⟨_, hm, rfl⟩
    · exact ⟨_, _, .parameter hm hname, rfl⟩
    · exact ⟨_, _, .result hm, rfl⟩
    · exact ⟨_, _, .callback hm, rfl⟩
  | event =>
    obtain ⟨hlisteners, ⟨_, hm, _, hname, rfl⟩ | ⟨_, hm, rfl⟩⟩ := mem_below_event.1 hq
    · exact ⟨_, _, .listenerParameter hlisteners hm hname, rfl⟩
    · exact ⟨_, _, .listenerResult hlisteners hm, rfl⟩
  | callback =>
    obtain ⟨_, hm, _, hname, rfl⟩ := mem_below_callback.1 hq
    exact ⟨_, _, .callbackParameter hm hname, rfl⟩

/-! ### Depths -/

/-- A visit leads no more than one level down, and just one if a node is then read as a type. -/
theorem Leads.depth (h : v.Leads w) :
    (w.depth = v.depth ∧ w.reading ≠ .type) ∨ w.depth = v.depth + 1 := by
  cases h with
  | extended | object | function => exact .inl ⟨rfl, by simp⟩
  | _ => exact .inr rfl

/-- How many levels too deep a node may be read in this way, if none around it was refused. -/
def slack : Place.Reading → Nat
  | .type => 3
  | .object => 0
  | .function => 1
  | .event => 1
  | .callback => 2

/-- **Below a visit that passes the guard** nothing is much too deep. -/
theorem Leads.depth_le (h : v.Leads w) (hv : ¬v.Refused)
    (hdepth : v.depth ≤ maxNesting + slack v.reading) : w.depth ≤ maxNesting + slack w.reading := by
  have htype : v.reading = .type → v.depth ≤ maxNesting := fun hreading =>
    Nat.not_lt.1 fun hd => hv ⟨hreading, hd⟩
  cases h <;> simp only [slack, forall_const] at * <;> omega

end Visit

/-! ### What is met in a namespace -/

namespace NamespaceNode

open Visit

variable {n : NamespaceNode} {v w : Visit}

/-- The members of a namespace are visited at depth 1. -/
inductive Starts (n : NamespaceNode) : Visit → Prop
  | type {m : Node} {id : String} : m ∈ n.types → m.id = some id → Starts n ⟨.type, m, 1⟩
  | property {m : Node} {key : String} : (key, m) ∈ n.properties → Starts n ⟨.type, m, 1⟩
  | function {m : Node} {name : String} : m ∈ n.functions → m.name = some name →
    Starts n ⟨.function, m, 1⟩
  | event {m : Node} {name : String} : m ∈ n.events → m.name = some name → Starts n ⟨.event, m, 1⟩

/-- A visit is met: visits lead to it, one after the other, from a member of the namespace. -/
def Meets (n : NamespaceNode) (w : Visit) : Prop :=
  ∃ v, n.Starts v ∧ Relation.ReflTransGen Leads v w

theorem Starts.meets (h : n.Starts v) : n.Meets v :=
  ⟨v, h, .refl⟩

theorem Meets.leads (h : n.Meets v) (hvw : v.Leads w) : n.Meets w := by
  obtain ⟨u, hu, huv⟩ := h
  exact ⟨u, hu, huv.tail hvw⟩

theorem Starts.depth_eq (h : n.Starts v) : v.depth = 1 := by
  cases h <;> rfl

theorem mem_places {q : Place} : q ∈ n.places ↔
    (((∃ m ∈ n.types, ∃ id, m.id = some id ∧
        q = place ⟨.type, m, 1⟩ (member (trim n.name) (n.localId id))) ∨
      ∃ key m, (key, m) ∈ n.properties ∧ q = place ⟨.type, m, 1⟩ (member (trim n.name) key)) ∨
      ∃ m ∈ n.functions, ∃ name, m.name = some name ∧
        q = place ⟨.function, m, 1⟩ (member (trim n.name) name)) ∨
      ∃ m ∈ n.events, ∃ name, m.name = some name ∧
        q = place ⟨.event, m, 1⟩ (member (trim n.name) name) := by
  have htypes : q ∈ n.types.filterMap (n.typeAt maxNesting) ↔ ∃ m ∈ n.types, ∃ id, m.id = some id ∧
      q = place ⟨.type, m, 1⟩ (member (trim n.name) (n.localId id)) := by
    simp only [List.mem_filterMap, typeAt, Option.map_eq_some_iff, @eq_comm Place _ q]
    rfl
  rw [places, List.mem_append, List.mem_append, List.mem_append, htypes]
  exact or_congr (or_congr (or_congr_right (mem_keyed_iff (d := 0)))
    (mem_named_iff (d := 0) fun _ => rfl)) (mem_named_iff (d := 0) fun _ => rfl)

theorem Starts.exists_mem_places (h : n.Starts v) : ∃ path, v.place path ∈ n.places := by
  cases h with
  | type hm hid => exact ⟨_, mem_places.2 (.inl (.inl (.inl ⟨_, hm, _, hid, rfl⟩)))⟩
  | property hm => exact ⟨_, mem_places.2 (.inl (.inl (.inr ⟨_, _, hm, rfl⟩)))⟩
  | function hm hname => exact ⟨_, mem_places.2 (.inl (.inr ⟨_, hm, _, hname, rfl⟩))⟩
  | event hm hname => exact ⟨_, mem_places.2 (.inr ⟨_, hm, _, hname, rfl⟩)⟩

theorem exists_starts_of_mem_places {q : Place} (hq : q ∈ n.places) :
    ∃ v path, n.Starts v ∧ q = v.place path := by
  rcases mem_places.1 hq with
    ((⟨_, hm, _, hid, rfl⟩ | ⟨_, _, hm, rfl⟩) | ⟨_, hm, _, hname, rfl⟩) | ⟨_, hm, _, hname, rfl⟩
  · exact ⟨_, _, .type hm hid, rfl⟩
  · exact ⟨_, _, .property hm, rfl⟩
  · exact ⟨_, _, .function hm hname, rfl⟩
  · exact ⟨_, _, .event hm hname, rfl⟩

/-- Where a visit is refused, nothing is parsed. -/
theorem not_refused_of_parse {path : String} {t : ApiType} (h : (v.place path).parse = .ok t) :
    ¬v.Refused := fun hv => by
  rw [place_of_refused hv] at h
  cases h

/-- **Everything that is met** in a namespace that can be parsed is parsed. -/
theorem Meets.exists_parse {ns : Namespace} (hns : n.parse = .ok ns) (h : n.Meets w) :
    ∃ path t, (w.place path).parse = .ok t := by
  obtain ⟨v, hv, hvw⟩ := h
  induction hvw with
  | refl =>
    obtain ⟨path, hmem⟩ := hv.exists_mem_places
    exact ⟨path, (n.parsed_parse ns hns).2.parsed.exists_parse _ hmem⟩
  | tail _ hlead ih =>
    obtain ⟨path, t, ht⟩ := ih
    obtain ⟨path', hmem⟩ := hlead.exists_mem_below (not_refused_of_parse ht) path
    obtain ⟨os, hparsed, -⟩ := Place.parsed_parse _ t ht
    exact ⟨path', hparsed.exists_parse _ hmem⟩

/-- Nothing of it is refused. -/
theorem Meets.not_refused {ns : Namespace} (hns : n.parse = .ok ns) (h : n.Meets v) :
    ¬v.Refused := by
  obtain ⟨path, t, ht⟩ := h.exists_parse hns
  exact not_refused_of_parse ht

theorem Starts.depth_le (h : n.Starts v) : v.depth ≤ maxNesting + slack v.reading := by
  rw [h.depth_eq]
  exact Nat.le_add_right_of_le (by decide)

/-- Nothing of it is much too deep. -/
theorem Meets.depth_le {ns : Namespace} (hns : n.parse = .ok ns) (h : n.Meets w) :
    w.depth ≤ maxNesting + slack w.reading := by
  obtain ⟨v, hv, hvw⟩ := h
  induction hvw with
  | refl => exact hv.depth_le
  | tail hvu hlead ih => exact hlead.depth_le (Meets.not_refused hns ⟨v, hv, hvu⟩) ih

/-- The role of a node that is read in this way. -/
def role : Place.Reading → NodeRole
  | .type => .type
  | .object => .type
  | .function => .function
  | .event => .event
  | .callback => .callback

theorem of_role (reading : Place.Reading) : reading.Of (role reading) := by
  cases reading <;> constructor

theorem levelsLeft_place (v : Visit) (path : String) :
    maxNesting < v.depth + (v.place path).levelsLeft := by
  obtain ⟨reading, m, d⟩ := v
  cases reading <;> simp only [place, room, Place.levelsLeft] <;> omega

/-- A node is too deep itself only if it is read as a type. -/
theorem refused_of_defective (hdepth : v.depth ≤ maxNesting + slack v.reading) {path path' : String}
    (h : v.node.Defective path (role v.reading) v.depth (.unexpectedShape path' .nestingTooDeep)) :
    v.Refused := by
  obtain ⟨reading, m, d⟩ := v
  generalize hrole : role reading = role at h
  cases h with
  | nestingTooDeep hd =>
    cases reading with
    | type => exact ⟨rfl, hd⟩
    | object => exact absurd hdepth (Nat.not_le.2 hd)
    | function => cases hrole
    | event => cases hrole
    | callback => cases hrole

/-- Parsing a visit is refused for its nesting only if something is refused that it leads to. -/
theorem Meets.failsWith_parse (h : n.Meets v) (hdepth : v.depth ≤ maxNesting + slack v.reading)
    (path : String) : FailsWith (v.place path).parse fun e =>
      ∀ path', e = .unexpectedShape path' .nestingTooDeep → ∃ w, n.Meets w ∧ w.Refused := by
  generalize hp : v.place path = p
  induction p using Place.induction generalizing v path with
  | step p ih =>
    subst hp
    refine Place.failsWith_parse (of_role v.reading) (levelsLeft_place v path) ?_ fun q hq => ?_
    · rintro e he path' rfl
      exact ⟨v, h, refused_of_defective hdepth he⟩
    · obtain ⟨hv, w, path', hlead, rfl⟩ := exists_leads_of_mem_below hq
      exact ih _ hq (h.leads hlead) (hlead.depth_le hv hdepth) path' rfl

/-- **Refusals**: a namespace is refused for its nesting only if a node is met that lies too deep. -/
theorem exists_refused {path : String}
    (h : n.parse = .error (.unexpectedShape path .nestingTooDeep)) :
    ∃ v, n.Meets v ∧ v.Refused := by
  have hname : trim n.name ≠ "" := fun hname => by
    unfold parse at h
    dsimp only at h
    rw [if_pos hname] at h
    cases h
  refine failsWith_parse (E := fun e => ∀ path', e = .unexpectedShape path' .nestingTooDeep → _)
    hname ?_ ?_ _ h path rfl
  · rintro e he path' rfl
    cases he
  · intro q hq
    obtain ⟨v, path', hv, rfl⟩ := exists_starts_of_mem_places hq
    exact hv.meets.failsWith_parse hv.depth_le path'

end NamespaceNode

end ApiTypings
