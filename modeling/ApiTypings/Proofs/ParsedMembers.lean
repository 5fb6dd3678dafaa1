import ApiTypings.Proofs.SchemaPlaces
import ApiTypings.Proofs.SchemaTypes
/-!
# Members that are parsed

The members of a namespace are its types, properties, functions and events, and those of an object
its properties, functions and events. Main statement (`NamespaceNode.parse_members`): parsing neither
loses nor repeats nor moves any of them, in a namespace and in every object type inside it. Where two
members have one name, parsing fails.

`ApiType.objects` lists the object types in a type with their members, and `Place.objects` lists the
nodes that are read as objects from a place on, with the members that they write. Parsing makes the
second list into the first (`Place.objects_parse`).
-/

namespace ApiTypings

/-! ### Entries -/

/-- What tells a member from others: its name, and whether it is a type or an event. -/
structure MemberEntry where
  name : Option String
  isType : Bool := false
  isEvent : Bool := false
  deriving DecidableEq, Repr

/-- The entry of a member. -/
def Property.entry (p : Property ApiType) : MemberEntry where
  name := p.name
  isType := p.isType
  isEvent := p.isEvent

/-- The entries of the members that an object node writes. -/
def Node.memberEntries (n : Node) : List MemberEntry :=
  n.ownProperties.map (fun p => { name := p.1 })
    ++ (n.functions.getD []).map (fun m => { name := m.name })
    ++ (n.events.getD []).map fun m => { name := m.name, isEvent := true }

/-- No two of the entries have one name. -/
def DistinctEntries (entries : List MemberEntry) : Prop :=
  (entries.map (·.name)).Nodup

instance (entries : List MemberEntry) : Decidable (DistinctEntries entries) :=
  inferInstanceAs (Decidable (List.Nodup _))

/-- The members of an object that is met at a path. -/
structure ObjectMembers where
  path : String
  entries : List MemberEntry
  deriving DecidableEq, Repr

/-! ### The objects in a type -/

namespace ApiType

mutual

/-- The object types in a type at a path, in the order of the schema. -/
def objects (path : String) : ApiType → List ObjectMembers
  | .primitive _ => []
  | .literal _ => []
  | .number _ _ _ => []
  | .reference _ arguments => objectsOfItems path arguments
  | .sequence element _ _ => objects path element
  | .object properties index _ _ =>
    ⟨path, properties.map Property.entry⟩
      :: (objectsOfProperties path properties ++ objectsOfIndex path index)
  | .intersection items => objectsOfItems path items
  | .choices items => objectsOfItems path items
  | .function parameters returns completion _ =>
    objectsOfProperties path parameters ++ objectsOfOption path returns
      ++ objectsOfOption path completion
termination_by structural t => t

/-- The object types in the types at one path. -/
def objectsOfItems (path : String) : List ApiType → List ObjectMembers
  | [] => []
  | t :: ts => objects path t ++ objectsOfItems path ts
termination_by structural t => t

/-- The object types in the type of a property of what is at a path. -/
def objectsOfProperty (path : String) : Property ApiType → List ObjectMembers
  | ⟨_, name, type⟩ => objects (member path name) type
termination_by structural t => t

/-- The object types in the types of properties. -/
def objectsOfProperties (path : String) : List (Property ApiType) → List ObjectMembers
  | [] => []
  | p :: ps => objectsOfProperty path p ++ objectsOfProperties path ps
termination_by structural t => t

/-- The object types in the type of a property, if there is one. -/
def objectsOfOption (path : String) : Option (Property ApiType) → List ObjectMembers
  | none => []
  | some p => objectsOfProperty path p
termination_by structural t => t

/-- The object types in the type of further members, if there are any. -/
def objectsOfIndex (path : String) : Option ApiType → List ObjectMembers
  | none => []
  | some t => objects path t
termination_by structural t => t

end

variable {path : String}

theorem objectsOfItems_eq (ts : List ApiType) :
    objectsOfItems path ts = ts.flatMap (objects path) := by
  induction ts with
  | nil => rfl
  | cons t ts ih => rw [objectsOfItems, ih, List.flatMap_cons]

/-- The object types in the types of the properties of what is at a path. -/
def objectsBelow (path : String) (ps : List (Property ApiType)) : List ObjectMembers :=
  ps.flatMap fun p => p.type.objects (member path p.name)

theorem objectsOfProperty_eq (p : Property ApiType) :
    objectsOfProperty path p = p.type.objects (member path p.name) := by
  cases p
  rfl

theorem objectsOfProperties_eq (ps : List (Property ApiType)) :
    objectsOfProperties path ps = objectsBelow path ps := by
  induction ps with
  | nil => rfl
  | cons p ps ih =>
    rw [objectsOfProperties, ih, objectsOfProperty_eq]
    rfl

theorem objectsOfOption_eq (p : Option (Property ApiType)) :
    objectsOfOption path p = objectsBelow path p.toList := by
  cases p with
  | none => rfl
  | some p => exact (objectsOfProperty_eq p).trans (List.append_nil _).symm

theorem objectsOfIndex_eq (t : Option ApiType) :
    objectsOfIndex path t = t.toList.flatMap (objects path) := by
  cases t with
  | none => rfl
  | some t => exact (List.append_nil _).symm

theorem objects_function (parameters : List (Property ApiType))
    (returns completion : Option (Property ApiType)) (callbackOnly : Bool) :
    (function parameters returns completion callbackOnly).objects path =
      objectsBelow path (parameters ++ returns.toList ++ completion.toList) := by
  rw [objects, objectsOfProperties_eq, objectsOfOption_eq, objectsOfOption_eq, objectsBelow,
    objectsBelow, objectsBelow, objectsBelow, List.flatMap_append, List.flatMap_append]

theorem objects_object (properties : List (Property ApiType)) (index : Option ApiType)
    (templates instanceType : Option String) :
    (object properties index templates instanceType).objects path =
      ⟨path, properties.map Property.entry⟩
        :: (objectsBelow path properties ++ index.toList.flatMap (objects path)) := by
  rw [objects, objectsOfProperties_eq, objectsOfIndex_eq]

end ApiType

open ApiType

/-! ### The objects of a schema -/

namespace Place

/-- The object that a place is read as, if it is. -/
def own (p : Place) : List ObjectMembers :=
  if p.reading = .object then [⟨p.path, p.node.memberEntries⟩] else []

/-- The objects that are read from a place on, in the order of the schema. -/
def objects (p : Place) : List ObjectMembers :=
  p.own ++ p.below.attach.flatMap fun q => q.1.objects
termination_by p.rank
decreasing_by exact rank_lt q.2

theorem objects_eq (p : Place) : p.objects = p.own ++ p.below.flatMap objects := by
  rw [objects, ← List.flatMap_map, List.attach_map_subtype_val]

/-- The places are parsed, and these are the objects in the types that they are parsed to. -/
inductive Parsed : List Place → List ObjectMembers → Prop
  | nil : Parsed [] []
  | cons {q : Place} {qs : List Place} {t : ApiType} {os : List ObjectMembers}
      (ht : q.parse = .ok t) (h : Parsed qs os) : Parsed (q :: qs) (t.objects q.path ++ os)

namespace Parsed

variable {qs qs' : List Place} {os os' : List ObjectMembers}

theorem single {q : Place} {t : ApiType} (ht : q.parse = .ok t) : Parsed [q] (t.objects q.path) :=
  List.append_nil (t.objects q.path) ▸ .cons ht .nil

theorem append (h : Parsed qs os) (h' : Parsed qs' os') : Parsed (qs ++ qs') (os ++ os') := by
  induction h with
  | nil => exact h'
  | cons ht _ ih =>
    rw [List.append_assoc]
    exact .cons ht ih

/-- What is known of the types that places are parsed to is known of all of them together. -/
theorem eq_flatMap {f : Place → List ObjectMembers} (h : Parsed qs os)
    (hf : ∀ q ∈ qs, ∀ t, q.parse = .ok t → t.objects q.path = f q) : os = qs.flatMap f := by
  induction h with
  | nil => rfl
  | cons ht _ ih =>
    rw [List.flatMap_cons, hf _ (List.mem_cons_self ..) _ ht,
      ih fun q hq => hf q (List.mem_cons_of_mem _ hq)]

theorem exists_parse (h : Parsed qs os) : ∀ q ∈ qs, ∃ t, q.parse = .ok t := by
  induction h with
  | nil => exact List.forall_mem_nil _
  | cons ht _ ih => exact List.forall_mem_cons.2 ⟨⟨_, ht⟩, ih⟩

end Parsed

/-! ### Types at one path, and parameters -/

variable {path : String} {room : Nat}

theorem Parsed.of_types {nodes : List Node} {ts : List ApiType}
    (h : List.Forall₂ (fun n t => parse ⟨.type, n, path, room⟩ = .ok t) nodes ts) :
    Parsed (types path room nodes) (ts.flatMap (ApiType.objects path)) := by
  induction h with
  | nil => exact .nil
  | cons ht _ ih => exact .cons ht ih

/-- A node is parsed to the type of a property that has its name. -/
structure IsNamed (reading : Reading) (path : String) (room : Nat) (n : Node) (p : Property ApiType) :
    Prop where
  name_eq : n.name = some p.name
  type_eq : parse ⟨reading, n, member path p.name, room⟩ = .ok p.type

theorem Parsed.of_named {reading : Reading} {nodes : List Node} {ps : List (Property ApiType)}
    (h : List.Forall₂ (IsNamed reading path room) nodes ps) :
    Parsed (named reading path room nodes) (objectsBelow path ps) := by
  induction h with
  | nil => exact .nil
  | @cons n p nodes ps hp _ ih =>
    have hnamed : named reading path room (n :: nodes) =
        ⟨reading, n, member path p.name, room⟩ :: named reading path room nodes := by
      simp [named, hp.name_eq]
    rw [hnamed]
    exact .cons hp.type_eq ih

theorem parsed_mapM (nodes : List Node) :
    Gives (nodes.mapM ((levels room).first · path)) fun ts =>
      Parsed (types path room nodes) (ts.flatMap (ApiType.objects path)) :=
  fun _ h => .of_types (mapM_eq_ok_iff.1 h)

theorem parsed_optionMapM (node : Option Node) :
    Gives (node.mapM ((levels room).first · path)) fun t =>
      Parsed (types path room node.toList) (t.toList.flatMap (ApiType.objects path)) := by
  cases node with
  | none => exact gives_ok .nil
  | some n =>
    intro t h
    obtain ⟨t, ht, h⟩ := bind_eq_ok_iff.1 h
    cases h
    exact .of_types (.cons ht .nil)

theorem name_of_requireName {n : Node} {parent name : String} {what : NamedKind}
    (h : n.requireName parent what = .ok name) : n.name = some name := by
  unfold Node.requireName at h
  split at h
  · next hname =>
    cases h
    exact hname
  · cases h

theorem parsed_parseParameters (nodes : Option (List Node)) :
    Gives (parseParameters (levels room).first path nodes) fun ps =>
      Parsed (named .type path room (nodes.getD [])) (objectsBelow path ps) := by
  intro ps h
  refine .of_named ((mapM_eq_ok_iff.1 h).imp fun n p hp => ?_)
  obtain ⟨name, hname, hp⟩ := bind_eq_ok_iff.1 hp
  obtain ⟨type, htype, hp⟩ := bind_eq_ok_iff.1 hp
  cases hp
  exact ⟨name_of_requireName hname, htype⟩

/-! ### Functions and events -/

/-- The result of a function or an event is a property that is named as one. -/
theorem parsed_result {make : Node → ApiType → Property ApiType}
    (hname : ∀ n t, (make n t).name = Property.returnName) (htype : ∀ n t, (make n t).type = t)
    (node : Option Node) :
    Gives (node.mapM fun n => do
        let type ← (levels room).first n (member path Property.returnName)
        return make n type)
      fun returns => Parsed (result path room node) (objectsBelow path returns.toList) := by
  cases node with
  | none => exact gives_ok .nil
  | some n =>
    intro returns h
    obtain ⟨p, hp, h⟩ := bind_eq_ok_iff.1 h
    obtain ⟨type, hparse, hp⟩ := bind_eq_ok_iff.1 hp
    cases hp
    cases h
    have hbelow : objectsBelow path [make n type] =
        [type].flatMap (ApiType.objects (member path Property.returnName)) := by
      simp only [objectsBelow, List.flatMap_singleton, hname, htype]
    exact hbelow ▸ .of_types (.cons hparse .nil)

theorem parsed_callback (node : Option Node) :
    Gives (node.mapM fun callback => do
        let name := callback.name.getD defaultCallbackName
        let parameters ← parseParameters (levels room).second (member path name) callback.parameters
        return callback.toProperty name (.function parameters none none false))
      fun completion =>
        Parsed (node.toList.map (callbackAt path room)) (objectsBelow path completion.toList) := by
  cases node with
  | none => exact gives_ok .nil
  | some n =>
    intro completion h
    obtain ⟨p, hp, h⟩ := bind_eq_ok_iff.1 h
    obtain ⟨parameters, hparameters, hp⟩ := bind_eq_ok_iff.1 hp
    cases hp
    cases h
    rw [levels_second] at hparameters
    exact .cons (bind_eq_ok_iff.2 ⟨parameters, hparameters, rfl⟩) .nil

theorem objectsBelow_append (ps qs : List (Property ApiType)) :
    objectsBelow path (ps ++ qs) = objectsBelow path ps ++ objectsBelow path qs :=
  List.flatMap_append

theorem parsed_parseFunction (n : Node) :
    Gives (parse ⟨.function, n, path, room⟩) fun t =>
      Parsed (below ⟨.function, n, path, room⟩) (t.objects path) := by
  show Gives (parseFunction _ _ n path) _
  unfold parseFunction
  dsimp only
  split
  · exact gives_throw_bind _
  refine (parsed_parseParameters _).bind fun parameters hparameters => ?_
  refine (parsed_result (fun _ _ => rfl) (fun _ _ => rfl) _).bind fun returns hreturns => ?_
  refine (parsed_callback _).bind fun completion hcompletion => gives_ok ?_
  rw [objects_function, objectsBelow_append, objectsBelow_append]
  exact (hparameters.append hreturns).append hcompletion

theorem objects_declarativeEvent (options : EventOptions) :
    Gives (declarativeEvent options path) fun t => t.objects path = [] := by
  have hnames : ∀ names : List String, objectsOfItems path (names.map .named) = [] := fun names => by
    rw [objectsOfItems_eq, List.flatMap_map]
    exact List.flatMap_eq_nil_iff.2 fun _ _ => rfl
  unfold declarativeEvent
  split
  · exact gives_error _
  · exact gives_error _
  · refine gives_ok ?_
    simp only [ApiType.objects, objectsOfItems, hnames, List.append_nil]
    rfl

theorem parsed_parseEvent (n : Node) :
    Gives (parse ⟨.event, n, path, room⟩) fun t =>
      Parsed (below ⟨.event, n, path, room⟩) (t.objects path) := by
  show Gives (parseEvent _ n path) _
  unfold parseEvent
  rw [below]
  dsimp only
  split
  · intro t ht
    rw [objects_declarativeEvent _ t ht]
    exact .nil
  · refine (parsed_parseParameters _).bind fun parameters hparameters => ?_
    refine (parsed_result (fun _ _ => rfl) (fun _ _ => rfl) _).bind fun returns hreturns => ?_
    refine gives_ok ?_
    have hobjects : ApiType.objects path (.reference ⟨ApiType.eventName, false, false⟩
        [.function parameters returns none false]) = objectsBelow path (parameters ++ returns.toList) := by
      rw [ApiType.objects, objectsOfItems, objectsOfItems, objects_function, Option.toList_none,
        List.append_nil, List.append_nil]
    rw [hobjects, objectsBelow_append]
    exact hparameters.append hreturns

/-! ### Objects -/

/-- The members that have been added so far: those at these places, with these entries. -/
structure Members (path : String) (places : List Place) (entries : List MemberEntry)
    (ps : List (Property ApiType)) : Prop where
  entries_eq : ps.map Property.entry = entries
  nodup : (ps.map (·.name)).Nodup
  required : ∀ p ∈ ps, p.isType = true → p.optional = false
  parsed : Parsed places (objectsBelow path ps)

namespace Members

variable {places : List Place} {entries : List MemberEntry} {ps r : List (Property ApiType)}

theorem nil : Members path [] [] [] :=
  ⟨rfl, List.nodup_nil, List.forall_mem_nil _, .nil⟩

theorem distinct (h : Members path places entries ps) : DistinctEntries entries := by
  have hnames : entries.map (·.name) = (ps.map (·.name)).map some := by
    rw [← h.entries_eq, List.map_map, List.map_map]
    rfl
  rw [DistinctEntries, hnames]
  exact h.nodup.map fun _ _ => Option.some.inj

/-- **One more member.** -/
theorem add (h : Members path places entries ps) {q : Place} {p : Property ApiType}
    (hpath : q.path = member path p.name) (htype : q.parse = .ok p.type)
    (hrequired : p.isType = true → p.optional = false) (hadd : addMember path ps p = .ok r) :
    Members path (places ++ [q]) (entries ++ [p.entry]) r := by
  have hnodup := nodup_addMember h.nodup r hadd
  obtain ⟨-, rfl⟩ := addMember_eq_ok_iff.1 hadd
  refine ⟨?_, hnodup, ?_, ?_⟩
  · rw [List.map_append, h.entries_eq]
    rfl
  · exact List.forall_mem_append.2 ⟨h.required, List.forall_mem_singleton.2 hrequired⟩
  · have hobjects : objectsBelow path [p] = p.type.objects q.path := by
      rw [hpath]
      exact List.append_nil _
    rw [objectsBelow_append, hobjects]
    exact h.parsed.append (.single htype)

/-- A step adds one member, at the place and with the entry that its node gives. -/
def Adds {α : Type} (path : String) (here : α → Option Place) (entry : α → MemberEntry)
    (step : List (Property ApiType) → α → Except SchemaError (List (Property ApiType))) : Prop :=
  ∀ ps x r, step ps x = .ok r → ∃ q p, here x = some q ∧ entry x = p.entry ∧
    q.path = member path p.name ∧ q.parse = .ok p.type ∧
      (p.isType = true → p.optional = false) ∧ addMember path ps p = .ok r

/-- **Members that are added in turn.** -/
theorem foldlM {α : Type} {here : α → Option Place} {entry : α → MemberEntry}
    {step : List (Property ApiType) → α → Except SchemaError (List (Property ApiType))}
    (hstep : Adds path here entry step) (xs : List α) (h : Members path places entries ps) :
    Gives (xs.foldlM step ps) fun r =>
      Members path (places ++ xs.filterMap here) (entries ++ xs.map entry) r := by
  induction xs generalizing places entries ps with
  | nil =>
    refine gives_ok ?_
    rw [List.filterMap_nil, List.map_nil, List.append_nil, List.append_nil]
    exact h
  | cons x xs ih =>
    rw [List.foldlM_cons]
    intro r hr
    obtain ⟨middle, hmiddle, hr⟩ := bind_eq_ok_iff.1 hr
    obtain ⟨q, p, hhere, hentry, hpath, htype, hrequired, hadd⟩ := hstep ps x middle hmiddle
    have hrest := ih (h.add hpath htype hrequired hadd) r hr
    rw [List.filterMap_cons_some hhere, List.map_cons, hentry]
    simpa only [List.append_assoc, List.singleton_append] using hrest

end Members

theorem keyed_eq_filterMap (nodes : List (String × Node)) :
    keyed path room nodes =
      nodes.filterMap fun n => some ⟨.type, n.2, member path n.1, room⟩ :=
  (congrFun List.filterMap_eq_map _).symm

/-- Only types have to be required. -/
theorem required_of_entry {p : Property ApiType} {entry : MemberEntry} (h : p.entry = entry)
    (hentry : entry.isType = false) : p.isType = true → p.optional = false := by
  subst h
  intro htrue
  exact absurd (htrue.symm.trans hentry) (by decide)

/-- Properties are added by their keys. -/
theorem adds_keyed {make : String × Node → ApiType → Property ApiType}
    (hname : ∀ n t, (make n t).name = n.1) (htype : ∀ n t, (make n t).type = t)
    (hentry : ∀ n t, (make n t).entry = { name := n.1 }) :
    Members.Adds path (fun n => some ⟨.type, n.2, member path n.1, room⟩)
      (fun n : String × Node => { name := n.1 })
      (fun ps n => do
        let type ← (levels room).first n.2 (member path n.1)
        addMember path ps (make n type)) := by
  intro ps n r h
  obtain ⟨type, hparse, h⟩ := bind_eq_ok_iff.1 h
  have hmake := hentry n type
  exact ⟨_, make n type, rfl, hmake.symm, by rw [hname], (htype n type).symm ▸ hparse,
    required_of_entry hmake rfl, h⟩

/-- Types are added by what their ids become. -/
theorem adds_types {e : SchemaError} (localId : String → String) :
    Members.Adds path
      (fun m : Node => m.id.map fun id => ⟨.type, m, member path (localId id), room⟩)
      (fun m : Node => { name := m.id.map localId, isType := true })
      (fun ps (m : Node) => do
        let some id := m.id | throw e
        let type ← (levels room).first m (member path (localId id))
        addMember path ps { m.toProperty (localId id) type with isType := true, optional := false }) := by
  intro ps m r h
  dsimp only at h ⊢
  cases hid : m.id with
  | none =>
    rw [hid] at h
    cases h
  | some id =>
    rw [hid] at h
    obtain ⟨type, htype, h⟩ := bind_eq_ok_iff.1 h
    exact ⟨_, { m.toProperty (localId id) type with isType := true, optional := false }, rfl, rfl, rfl,
      htype, fun _ => rfl, h⟩

/-- Functions and events are added by their own names. -/
theorem adds_named {reading : Reading} {parser : NodeParser} {what : NamedKind}
    {make : Node → String → ApiType → Property ApiType} {isEvent : Bool}
    (hparser : ∀ n path, parser n path = parse ⟨reading, n, path, room⟩)
    (hname : ∀ n name t, (make n name t).name = name) (htype : ∀ n name t, (make n name t).type = t)
    (hentry : ∀ n name t, (make n name t).entry = { name := name, isEvent := isEvent }) :
    Members.Adds path (fun n => n.name.map fun name => ⟨reading, n, member path name, room⟩)
      (fun n => { name := n.name, isEvent := isEvent })
      (fun ps n => do
        let name ← n.requireName path what
        let type ← parser n (member path name)
        addMember path ps (make n name type)) := by
  intro ps n r h
  obtain ⟨name, hrequire, h⟩ := bind_eq_ok_iff.1 h
  obtain ⟨type, hparse, h⟩ := bind_eq_ok_iff.1 h
  have hn : n.name = some name := name_of_requireName hrequire
  have hmake := hentry n name type
  refine ⟨⟨reading, n, member path name, room⟩, make n name type, ?_, ?_, ?_, ?_,
    required_of_entry hmake rfl, h⟩
  · simp only [hn, Option.map_some]
  · simp only [hmake, hn]
  · rw [hname]
  · rw [← hparser, hparse, htype]

theorem parseFunction_inside (n : Node) (path : String) :
    parseFunction (levels room).second (levels room).third n path =
      parse ⟨.function, n, path, room - 1⟩ := by
  rw [levels_second, levels_third]
  rfl

theorem parseEvent_inside (n : Node) (path : String) :
    parseEvent (levels room).second n path = parse ⟨.event, n, path, room - 1⟩ := by
  rw [levels_second]
  rfl

/-- The members of an object node are those that it writes. -/
theorem parsed_parseObject (n : Node) :
    Gives (parse ⟨.object, n, path, room⟩) fun t => ∃ os,
      Parsed (below ⟨.object, n, path, room⟩) os ∧
        t.objects path = own ⟨.object, n, path, room⟩ ++ os ∧ DistinctEntries n.memberEntries := by
  show Gives (parseObject _ n path) _
  unfold parseObject
  dsimp only
  refine (Members.nil.foldlM (adds_keyed (fun _ _ => rfl) (fun _ _ => rfl) fun _ _ => rfl)
    n.ownProperties).bind fun members hmembers => ?_
  refine (hmembers.foldlM (adds_named parseFunction_inside (fun _ _ _ => rfl) (fun _ _ _ => rfl)
    fun _ _ _ => rfl) (n.functions.getD [])).bind fun members hmembers => ?_
  refine (hmembers.foldlM (adds_named parseEvent_inside (fun _ _ _ => rfl) (fun _ _ _ => rfl)
    fun _ _ _ => rfl) (n.events.getD [])).bind fun members hmembers => ?_
  refine (parsed_optionMapM n.additionalProperties).bind fun index hindex => gives_ok ?_
  have hmembers : Members path (keyed path room n.ownProperties
      ++ named .function path (room - 1) (n.functions.getD [])
      ++ named .event path (room - 1) (n.events.getD [])) n.memberEntries members := by
    rw [keyed_eq_filterMap]
    exact hmembers
  refine ⟨_, hmembers.parsed.append hindex, ?_, hmembers.distinct⟩
  rw [objects_object, hmembers.entries_eq]
  rfl

/-! ### Types -/

theorem parsed_parseSetting (n : Node) :
    Gives (parseSetting (levels room) n path) fun ts =>
      Parsed (types path room n.settingSchema?.toList) (ts.flatMap (ApiType.objects path)) := by
  unfold parseSetting
  split
  · next schema hvalue =>
    have hschema : n.settingSchema? = Node.read schema := by rw [Node.settingSchema?, hvalue]
    rw [hschema]
    cases Node.read schema with
    | none => exact gives_error _
    | some m =>
      intro ts h
      obtain ⟨t, ht, h⟩ := bind_eq_ok_iff.1 h
      cases h
      exact .of_types (.cons ht .nil)
  · next hnot =>
    have hschema : n.settingSchema? = none := by
      unfold Node.settingSchema?
      split
      · next schema hvalue => exact absurd hvalue (hnot _ _)
      · rfl
    rw [hschema]
    exact gives_ok .nil

theorem parsed_parseKind (n : Node) (word : String) :
    Gives (parseKind (levels room) n path word) fun t =>
      Parsed (n.belowKind path room word) (t.objects path) := by
  unfold parseKind
  split
  · cases hitems : n.items with
    | none => exact gives_error _
    | some items =>
      intro t h
      obtain ⟨element, helement, h⟩ := bind_eq_ok_iff.1 h
      cases h
      have helements := Parsed.of_types (.cons helement .nil)
      rw [List.flatMap_singleton] at helements
      simp only [Node.belowKind, hitems]
      exact helements
  -- Objects and functions are read at a place of their own, and the other kinds have nothing below.
  case h_11 => exact fun t ht => .single (q := ⟨.object, n, path, room⟩) ht
  case h_12 => exact fun t ht => .single (q := ⟨.function, n, path, room⟩) ht
  case h_13 => exact gives_error _
  all_goals exact gives_ok .nil

theorem objects_enumEntry (e : EnumEntry) : e.toType.objects path = [] := by
  cases e <;> rfl

theorem parsed_parseForm (n : Node) (form : Node.Form) :
    Gives (parseForm (levels room) n path form) fun t =>
      Parsed (n.belowForm path room form) (t.objects path) := by
  cases form with
  | choices items =>
    refine (parsed_mapM items).bind fun ts hts => gives_ok ?_
    rw [ApiType.objects, objectsOfItems_eq]
    exact hts
  | enumeration entries =>
    refine gives_ok ?_
    rw [ApiType.objects, objectsOfItems_eq, List.flatMap_map,
      List.flatMap_eq_nil_iff.2 fun e _ => objects_enumEntry e]
    exact .nil
  | reference target =>
    refine (parsed_parseSetting n).bind fun arguments harguments => ?_
    have hreference : (reference ⟨target, false, false⟩ arguments).objects path =
        arguments.flatMap (ApiType.objects path) := by
      rw [ApiType.objects, objectsOfItems_eq]
    dsimp only
    unfold Node.belowForm
    split
    · intro t h
      obtain ⟨object, hobject, h⟩ := bind_eq_ok_iff.1 h
      cases h
      rw [ApiType.objects, objectsOfItems_eq, List.flatMap_cons, List.flatMap_singleton, hreference]
      exact harguments.append (.single (q := ⟨.object, n, path, room⟩) hobject)
    · refine gives_ok ?_
      rw [hreference, List.append_nil]
      exact harguments
  | host target => exact gives_ok .nil
  | literal value => exact gives_ok .nil
  | kind word => exact parsed_parseKind n word
  | untyped => exact gives_error _

/-! ### All places -/

/-- **What is parsed at a place**: the object that it is read as, if it is, and what is parsed at the
places below it. -/
theorem parsed_parse (p : Place) :
    Gives p.parse fun t => ∃ os, Parsed p.below os ∧ t.objects p.path = p.own ++ os ∧
      ∀ o ∈ p.own, DistinctEntries o.entries := by
  obtain ⟨reading, n, path, room⟩ := p
  cases reading with
  | type =>
    cases room with
    | zero => exact gives_error _
    | succ room =>
      show Gives (parseNode (levels room) n path) _
      rw [parseNode_eq]
      exact fun t ht => ⟨_, parsed_parseForm n n.form t ht, rfl, List.forall_mem_nil _⟩
  | object =>
    intro t ht
    obtain ⟨os, hos, hobjects, hdistinct⟩ := parsed_parseObject n t ht
    exact ⟨os, hos, hobjects, List.forall_mem_singleton.2 hdistinct⟩
  | function => exact fun t ht => ⟨_, parsed_parseFunction n t ht, rfl, List.forall_mem_nil _⟩
  | event => exact fun t ht => ⟨_, parsed_parseEvent n t ht, rfl, List.forall_mem_nil _⟩
  | callback =>
    refine (parsed_parseParameters n.parameters).bind fun parameters h => gives_ok ⟨_, h, ?_, ?_⟩
    · rw [objects_function, Option.toList_none, List.append_nil, List.append_nil]
      rfl
    · exact List.forall_mem_nil _

/-- **The objects in a type that is parsed** are those that are read from its place on, in the same
order and with the same members, and no object has two members of one name. -/
theorem objects_parse (p : Place) :
    Gives p.parse fun t => t.objects p.path = p.objects ∧
      ∀ o ∈ p.objects, DistinctEntries o.entries := by
  induction p using Place.induction with
  | step p ih =>
    intro t ht
    obtain ⟨os, hos, hobjects, hdistinct⟩ := parsed_parse p t ht
    rw [objects_eq, hobjects, hos.eq_flatMap fun q hq t ht => (ih q hq t ht).1]
    refine ⟨rfl, List.forall_mem_append.2 ⟨hdistinct, fun o ho => ?_⟩⟩
    obtain ⟨q, hq, ho⟩ := List.mem_flatMap.1 ho
    obtain ⟨u, hu⟩ := hos.exists_parse q hq
    exact (ih q hq u hu).2 o ho

end Place

/-! ### Namespaces -/

namespace NamespaceNode

open Place

/-- The name of a type of the namespace: its id, without the name of the namespace in front. -/
def localId (n : NamespaceNode) (id : String) : String :=
  (localName? (trim n.name) id).getD id

/-- The entries of the members that a namespace writes. -/
def memberEntries (n : NamespaceNode) : List MemberEntry :=
  n.types.map (fun m => { name := m.id.map n.localId, isType := true })
    ++ n.properties.map (fun p => { name := p.1 })
    ++ n.functions.map (fun m => { name := m.name })
    ++ n.events.map fun m => { name := m.name, isEvent := true }

/-- The place of a type of the namespace, if it has an id. -/
def typeAt (n : NamespaceNode) (room : Nat) (m : Node) : Option Place :=
  m.id.map fun id => ⟨.type, m, member (trim n.name) (n.localId id), room⟩

/-- The places of the members of a namespace. Functions and events take a level of their own. -/
def places (n : NamespaceNode) : List Place :=
  n.types.filterMap (n.typeAt maxNesting) ++ keyed (trim n.name) maxNesting n.properties
    ++ named .function (trim n.name) (maxNesting - 1) n.functions
    ++ named .event (trim n.name) (maxNesting - 1) n.events

/-- The objects that are read in a namespace, in the order of the schema. -/
def objects (n : NamespaceNode) : List ObjectMembers :=
  n.places.flatMap Place.objects

/-- No two members that a namespace writes have one name, and neither have two members of an object
inside it. -/
def DistinctMembers (n : NamespaceNode) : Prop :=
  DistinctEntries n.memberEntries ∧ ∀ o ∈ n.objects, DistinctEntries o.entries

instance (n : NamespaceNode) : Decidable n.DistinctMembers :=
  inferInstanceAs (Decidable (_ ∧ _))

end NamespaceNode

/-- The object types in the members of a namespace. -/
def Namespace.objects (ns : Namespace) : List ObjectMembers :=
  objectsBelow ns.name ns.members

/-- The members of a namespace are those that a node writes, each under its own name and in the same
order, and so are those of every object inside it. No two in one place have one name, and a type is
never optional. -/
structure Namespace.HasMembersOf (ns : Namespace) (n : NamespaceNode) : Prop where
  entries_eq : ns.members.map Property.entry = n.memberEntries
  required : ∀ p ∈ ns.members, p.isType = true → p.optional = false
  objects_eq : ns.objects = n.objects
  distinct : n.DistinctMembers

namespace NamespaceNode

open Place

/-- The members of a namespace are those that its node writes. -/
theorem parsed_parse (n : NamespaceNode) :
    Gives n.parse fun ns => ns.name = trim n.name ∧
      Members (trim n.name) n.places n.memberEntries ns.members := by
  unfold parse places
  -- How many levels there are does not matter.
  generalize maxNesting = room
  dsimp only
  split
  · exact gives_throw_bind _
  refine (Members.nil.foldlM (adds_types n.localId) n.types).bind fun members hmembers => ?_
  refine (hmembers.foldlM (adds_keyed (fun _ _ => rfl) (fun _ _ => rfl) fun _ _ => rfl)
    n.properties).bind fun members hmembers => ?_
  refine (hmembers.foldlM (adds_named parseFunction_inside (fun _ _ _ => rfl) (fun _ _ _ => rfl)
    fun _ _ _ => rfl) n.functions).bind fun members hmembers => ?_
  refine (hmembers.foldlM (adds_named parseEvent_inside (fun _ _ _ => rfl) (fun _ _ _ => rfl)
    fun _ _ _ => rfl) n.events).bind fun members hmembers => gives_ok ⟨rfl, ?_⟩
  rw [keyed_eq_filterMap]
  exact hmembers

theorem hasMembersOf_parse (n : NamespaceNode) : Gives n.parse (Namespace.HasMembersOf · n) := by
  intro ns hns
  obtain ⟨hname, hmembers⟩ := n.parsed_parse ns hns
  have hobjects : ns.objects = n.objects := by
    rw [Namespace.objects, hname]
    exact hmembers.parsed.eq_flatMap fun q _ t ht => (q.objects_parse t ht).1
  refine ⟨hmembers.entries_eq, hmembers.required, hobjects, hmembers.distinct, fun o ho => ?_⟩
  obtain ⟨q, hq, ho⟩ := List.mem_flatMap.1 ho
  obtain ⟨t, ht⟩ := hmembers.parsed.exists_parse q hq
  exact (q.objects_parse t ht).2 o ho

/-- **Members that are parsed**: parsing a namespace keeps the members that its node writes, in the
namespace and in every object inside it. Where a node gives two members one name, parsing fails. -/
theorem parse_members (n : NamespaceNode) :
    (∀ ns, n.parse = .ok ns → ns.HasMembersOf n) ∧
      (¬n.DistinctMembers → ∃ e, n.parse = .error e) := by
  refine ⟨n.hasMembersOf_parse, fun hnot => ?_⟩
  cases h : n.parse with
  | error e => exact ⟨e, rfl⟩
  | ok ns => exact absurd (n.hasMembersOf_parse ns h).distinct hnot

/-- A namespace with a type that has a qualified id, a marker and members of its own. -/
def tabs : NamespaceNode where
  name := "tabs"
  types := [{
    id := some "tabs.Tab"
    kind := some "object"
    optional := true
    properties := some [
      ("instanceType", { enumEntries := some [.name "tab"] }),
      ("size", { properties := some [("width", { kind := some "integer" })] })]
    functions := some [{ name := some "close" }]
    events := some [{ name := some "onClosed" }] }]
  properties := [("active", { kind := some "boolean" })]
  functions := [{ name := some "query" }]
  events := [{ name := some "onOpened" }]

/-- All members are kept, where the marker is none. A property may not have the name that the type has
without that of the namespace. -/
theorem parse_tabs :
    (∃ ns, tabs.parse = .ok ns ∧
      ns.members.map Property.entry = [⟨"Tab", true, false⟩, ⟨"active", false, false⟩,
        ⟨"query", false, false⟩, ⟨"onOpened", false, true⟩] ∧
      ns.objects = [
        ⟨"tabs.Tab", [⟨"size", false, false⟩, ⟨"close", false, false⟩, ⟨"onClosed", false, true⟩]⟩,
        ⟨"tabs.Tab.size", [⟨"width", false, false⟩]⟩]) ∧
      ∃ e, { tabs with properties := [("Tab", { kind := some "string" })] }.parse = .error e := by
  refine ⟨?_, (parse_members _).2 (by decide +kernel)⟩
  have hparse : (tabs.parse.map fun _ => ()) = .ok () := by decide +kernel
  obtain ⟨ns, hns, -⟩ := map_eq_ok_iff.1 hparse
  have hmembers := (parse_members tabs).1 ns hns
  exact ⟨ns, hns, hmembers.entries_eq.trans (by decide +kernel),
    hmembers.objects_eq.trans (by decide +kernel)⟩

end NamespaceNode

end ApiTypings
