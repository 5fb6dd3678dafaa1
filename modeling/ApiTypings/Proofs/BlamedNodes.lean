import ApiTypings.Proofs.ReachedNodes
import Mathlib.Data.List.Duplicate
/-!
# The nodes that errors blame

Main statement (`NamespaceNode.parse_blames`): if a namespace with a name cannot be parsed, a node
that is reached at the path of the error, or the namespace itself, has the defect that the error names
(`Node.Defective`, `NamespaceNode.Defective`).

Where parsing a place fails, the node has a defect or parsing a place below it fails
(`Place.failsWith_parse`).
-/

namespace ApiTypings

/-! ### Defects -/

/-- The types that a node can declare. -/
def typeKeywords : List String :=
  ["array", "number", "double", "integer", "int64", "binary", "boolean", "any", "string", "null",
    "object", "function"]

/-- A node of this kind directly below has no name. -/
inductive Node.HasUnnamed (n : Node) : NamedKind → Prop
  | function {nodes : List Node} {m : Node} : n.functions = some nodes → m ∈ nodes → m.name = none →
    HasUnnamed n .functionNode
  | event {nodes : List Node} {m : Node} : n.events = some nodes → m ∈ nodes → m.name = none →
    HasUnnamed n .eventNode
  | parameter {nodes : List Node} {m : Node} : n.parameters = some nodes → m ∈ nodes →
    m.name = none → HasUnnamed n .parameterNode

/-- The list of a declarative event. -/
def EventOptions.ruleList (options : EventOptions) : RuleList → Option (List String)
  | .conditions => options.conditions
  | .actions => options.actions

/-- A node in a role, at a path and a depth, has the defect that the error names. -/
inductive Node.Defective (n : Node) (path : String) : NodeRole → Nat → SchemaError → Prop
  | missingType {depth : Nat} : n.Untyped → Defective n path .type depth (.missingType path)
  | unknownType {depth : Nat} {kind : String} : n.kind = some kind → kind ∉ typeKeywords →
    Defective n path .type depth (.unknownType path kind)
  | missingName {role : NodeRole} {depth : Nat} {what : NamedKind} : n.HasUnnamed what →
    Defective n path role depth (.missingName path what)
  | conflictingReturns {role : NodeRole} {depth : Nat} : n.returns.isSome = true →
    n.returnsAsync.isSome = true → Defective n path role depth (.conflictingReturns path)
  | missingDeclarativeList {depth : Nat} {options : EventOptions} {list : RuleList} :
    n.options = some options → options.supportsListeners = some false →
    options.ruleList list = none → Defective n path .event depth (.missingDeclarativeList path list)
  | duplicateMember {depth : Nat} {name : String} :
    List.Duplicate (some name) (n.memberEntries.map (·.name)) →
    Defective n path .type depth (.duplicateMember path name)
  | arrayWithoutItems {depth : Nat} : n.kind = some "array" → n.items = none →
    Defective n path .type depth (.unexpectedShape path .arrayWithoutItems)
  | settingValue {depth : Nat} {target : String} {name schema : Json.Value} :
    n.target = some target → n.value = some (.array [name, schema]) → Node.read schema = none →
    Defective n path .type depth (.unexpectedShape path .settingValue)
  | nestingTooDeep {depth : Nat} : maxNesting < depth →
    Defective n path .type depth (.unexpectedShape path .nestingTooDeep)

/-- A namespace has the defect that the error names. -/
inductive NamespaceNode.Defective (n : NamespaceNode) : SchemaError → Prop
  | type {m : Node} : m ∈ n.types → m.id = none → Defective n (.missingName (trim n.name) .typeNode)
  | function {m : Node} : m ∈ n.functions → m.name = none →
    Defective n (.missingName (trim n.name) .functionNode)
  | event {m : Node} : m ∈ n.events → m.name = none →
    Defective n (.missingName (trim n.name) .eventNode)
  | duplicateMember {name : String} : List.Duplicate (some name) (n.memberEntries.map (·.name)) →
    Defective n (.duplicateMember (trim n.name) name)

/-- The namespace has the defect that the error names, or a node does that is reached at the path that
the error tells. -/
def NamespaceNode.Blamed (n : NamespaceNode) (e : SchemaError) : Prop :=
  n.Defective e ∨ ∃ role m path depth, n.Reaches role m path depth ∧ m.Defective path role depth e

/-! ### Members that cannot be added -/

namespace Place.Members

variable {α : Type} {path : String} {room : Nat} {E : SchemaError → Prop} {unnamed : SchemaError}
variable {here : α → Option Place} {entry : α → MemberEntry}
variable {step : List (Property ApiType) → α → Except SchemaError (List (Property ApiType))}

/-- Why a node is not added to the members of what is at a path: it has no name, what is at its
place cannot be parsed, or its name is taken. -/
inductive Rejection (path : String) (unnamed : SchemaError) (name : Option String)
    (place : Option Place) (ps : List (Property ApiType)) : SchemaError → Prop
  | unnamed : name = none → Rejection path unnamed name place ps unnamed
  | failed {q : Place} {e : SchemaError} : place = some q → q.parse = .error e →
    Rejection path unnamed name place ps e
  | taken {taken : String} : name = some taken → taken ∈ ps.map (·.name) →
    Rejection path unnamed name place ps (.duplicateMember path taken)

/-- A step fails for one of these reasons. -/
def Rejects (path : String) (unnamed : SchemaError) (here : α → Option Place)
    (entry : α → MemberEntry)
    (step : List (Property ApiType) → α → Except SchemaError (List (Property ApiType))) : Prop :=
  ∀ ps x e, step ps x = .error e → Rejection path unnamed (entry x).name (here x) ps e

theorem addMember_eq_error {ps : List (Property ApiType)} {p : Property ApiType} {e : SchemaError}
    (h : addMember path ps p = .error e) :
    p.name ∈ ps.map (·.name) ∧ e = .duplicateMember path p.name := by
  unfold addMember at h
  split at h
  · next hany =>
    cases h
    obtain ⟨q, hq, hname⟩ := List.any_eq_true.1 hany
    exact ⟨List.mem_map.2 ⟨q, hq, of_decide_eq_true hname⟩, rfl⟩
  · cases h

/-- **Members that are added in turn** fail as one of the steps does. A name that is taken already is
the name of two members. -/
theorem failsWith_foldlM (hadds : Adds path here entry step)
    (hrejects : Rejects path unnamed here entry step)
    {xs : List α} {places : List Place} {entries : List MemberEntry} {ps : List (Property ApiType)}
    (h : Members path places entries ps)
    (hunnamed : ∀ x ∈ xs, (entry x).name = none → E unnamed)
    (hhere : ∀ q ∈ xs.filterMap here, FailsWith q.parse E)
    (htwice : ∀ name, List.Duplicate (some name) ((entries ++ xs.map entry).map (·.name)) →
      E (.duplicateMember path name)) :
    FailsWith (xs.foldlM step ps) E := by
  induction xs generalizing places entries ps with
  | nil => exact failsWith_ok _
  | cons x xs ih =>
    rw [List.foldlM_cons]
    refine FailsWith.bind (fun e he => ?_) fun middle hmiddle => ?_
    · cases hrejects ps x e he with
      | unnamed hname => exact hunnamed x (List.mem_cons_self ..) hname
      | failed hq hparse =>
        exact hhere _ (List.mem_filterMap.2 ⟨x, List.mem_cons_self .., hq⟩) e hparse
      | @taken name hname hmem =>
        -- The name is that of an earlier member.
        have hearlier : some name ∈ entries.map (·.name) := by
          rw [← h.entries_eq, List.map_map]
          obtain ⟨p, hp, rfl⟩ := List.mem_map.1 hmem
          exact List.mem_map.2 ⟨p, hp, rfl⟩
        refine htwice name ?_
        rw [List.duplicate_iff_sublist, List.map_append, List.map_cons, List.map_cons, hname]
        have hfirst : [some name].Sublist (entries.map (·.name)) :=
          List.singleton_sublist.2 hearlier
        exact hfirst.append ((List.nil_sublist _).cons_cons (some name))
    · obtain ⟨q, p, hq, hentry, hpath, htype, hrequired, hadd⟩ := hadds ps x middle hmiddle
      refine ih (h.add hpath htype hrequired hadd)
        (fun y hy => hunnamed y (List.mem_cons_of_mem _ hy)) (fun q hq => ?_)
        fun name hname => htwice name ?_
      · obtain ⟨y, hy, hq⟩ := List.mem_filterMap.1 hq
        exact hhere q (List.mem_filterMap.2 ⟨y, List.mem_cons_of_mem _ hy, hq⟩)
      · rw [← hentry, List.append_assoc] at hname
        exact hname

/-- What follows after members have been added can rely on them. -/
theorem failsWith_foldlM_bind {β : Type} (hadds : Adds path here entry step)
    (hrejects : Rejects path unnamed here entry step) {xs : List α} {places : List Place}
    {entries : List MemberEntry} {ps : List (Property ApiType)}
    {f : List (Property ApiType) → Except SchemaError β} (h : Members path places entries ps)
    (hunnamed : ∀ x ∈ xs, (entry x).name = none → E unnamed)
    (hhere : ∀ q ∈ xs.filterMap here, FailsWith q.parse E)
    (htwice : ∀ name, List.Duplicate (some name) ((entries ++ xs.map entry).map (·.name)) →
      E (.duplicateMember path name))
    (hf : ∀ r, Members path (places ++ xs.filterMap here) (entries ++ xs.map entry) r →
      FailsWith (f r) E) : FailsWith (xs.foldlM step ps >>= f) E :=
  (failsWith_foldlM hadds hrejects h hunnamed hhere htwice).bind fun r hr =>
    hf r (h.foldlM hadds xs r hr)

/-- Where a node that has a name is parsed and added, the step fails as parsing or adding does. -/
theorem rejection_of_bind {ps : List (Property ApiType)} {e : SchemaError} {name : String}
    (q : Place) {make : ApiType → Property ApiType} (hname : ∀ t, (make t).name = name)
    (h : (q.parse >>= fun t => addMember path ps (make t)) = .error e) :
    Rejection path unnamed (some name) (some q) ps e := by
  rcases bind_eq_error_iff.1 h with h | ⟨t, -, h⟩
  · exact .failed rfl h
  · obtain ⟨hmem, rfl⟩ := addMember_eq_error h
    rw [hname] at hmem ⊢
    exact .taken rfl hmem

theorem rejects_keyed (unnamed : SchemaError) {make : String × Node → ApiType → Property ApiType}
    (hname : ∀ n t, (make n t).name = n.1) :
    Rejects path unnamed (fun n => some ⟨.type, n.2, member path n.1, room⟩)
      (fun n : String × Node => { name := n.1 })
      (fun ps n => do
        let type ← (levels room).first n.2 (member path n.1)
        addMember path ps (make n type)) :=
  fun _ n _ h => rejection_of_bind ⟨.type, n.2, member path n.1, room⟩ (hname n) h

theorem rejects_types (localId : String → String) :
    Rejects path unnamed
      (fun m : Node => m.id.map fun id => ⟨.type, m, member path (localId id), room⟩)
      (fun m : Node => { name := m.id.map localId, isType := true })
      (fun ps (m : Node) => do
        let some id := m.id | throw unnamed
        let type ← (levels room).first m (member path (localId id))
        addMember path ps
          { m.toProperty (localId id) type with isType := true, optional := false }) := by
  intro ps m e h
  dsimp only at h ⊢
  cases hid : m.id with
  | none =>
    rw [hid] at h
    cases h
    exact .unnamed rfl
  | some id =>
    rw [hid] at h
    exact rejection_of_bind ⟨.type, m, member path (localId id), room⟩ (fun _ => rfl) h

theorem rejects_named {reading : Reading} {parser : NodeParser} {what : NamedKind}
    {make : Node → String → ApiType → Property ApiType} {isEvent : Bool}
    (hparser : ∀ n path, parser n path = parse ⟨reading, n, path, room⟩)
    (hname : ∀ n name t, (make n name t).name = name) :
    Rejects path (.missingName path what)
      (fun n => n.name.map fun name => ⟨reading, n, member path name, room⟩)
      (fun n => { name := n.name, isEvent := isEvent })
      (fun ps n => do
        let name ← n.requireName path what
        let type ← parser n (member path name)
        addMember path ps (make n name type)) := by
  intro ps n e h
  dsimp only at h ⊢
  rcases bind_eq_error_iff.1 h with h | ⟨name, hrequire, h⟩
  · unfold Node.requireName at h
    split at h
    · cases h
    · next hn =>
      cases h
      exact .unnamed hn
  · rw [name_of_requireName hrequire]
    rw [hparser] at h
    exact rejection_of_bind ⟨reading, n, member path name, room⟩ (hname n name) h

end Place.Members

/-! ### Places that cannot be parsed -/

namespace Place

variable {m : Node} {path : String} {room depth : Nat} {role : NodeRole} {E : SchemaError → Prop}

theorem failsWith_requireName {parent : String} {what : NamedKind}
    (h : m.name = none → E (.missingName parent what)) :
    FailsWith (m.requireName parent what) E := by
  unfold Node.requireName
  split
  · exact failsWith_ok _
  · next hname => exact failsWith_error (h hname)

section Signature

variable (hown : ∀ e, m.Defective path role depth e → E e)
include hown

/-- Parameters fail as one of them does, or because one has no name. -/
theorem failsWith_parseParameters
    (hbelow : ∀ q ∈ named .type path room (m.parameters.getD []), FailsWith q.parse E) :
    FailsWith (parseParameters (levels room).first path m.parameters) E := by
  refine FailsWith.mapM fun n hn => ?_
  refine (failsWith_requireName fun hname => ?_).bind fun name hname => ?_
  · obtain ⟨nodes, hnodes, hn⟩ := exists_of_mem_getD hn
    exact hown _ (.missingName (.parameter hnodes hn hname))
  · have hplace : ⟨.type, n, member path name, room⟩ ∈
        named .type path room (m.parameters.getD []) :=
      List.mem_filterMap.2 ⟨n, hn, by rw [name_of_requireName hname]; rfl⟩
    exact (hbelow _ hplace).bind fun type _ => failsWith_ok _

omit hown in
/-- A result fails as its node does. -/
theorem failsWith_result {make : Node → ApiType → Property ApiType}
    (hbelow : ∀ q ∈ result path room m.returns, FailsWith q.parse E) :
    FailsWith (m.returns.mapM fun n => do
      let type ← (levels room).first n (member path Property.returnName)
      return make n type) E := by
  refine FailsWith.optionMapM fun n hn => ?_
  have hplace : ⟨.type, n, member path Property.returnName, room⟩ ∈ result path room m.returns :=
    List.mem_map.2 ⟨n, Option.mem_toList.2 hn, rfl⟩
  exact FailsWith.bind (hbelow _ hplace) fun type _ => failsWith_ok _

theorem failsWith_callback (hbelow : ∀ q ∈ below ⟨.callback, m, path, room⟩, FailsWith q.parse E) :
    FailsWith (parse ⟨.callback, m, path, room⟩) E :=
  (failsWith_parseParameters hown hbelow).bind fun _ _ => failsWith_ok _

theorem failsWith_function (hbelow : ∀ q ∈ below ⟨.function, m, path, room⟩, FailsWith q.parse E) :
    FailsWith (parse ⟨.function, m, path, room⟩) E := by
  obtain ⟨hsignature, hcallback⟩ := List.forall_mem_append.1 hbelow
  obtain ⟨hparameters, hresult⟩ := List.forall_mem_append.1 hsignature
  show FailsWith (parseFunction _ _ m path) E
  unfold parseFunction
  dsimp only
  split
  · next hboth =>
    rw [Bool.and_eq_true] at hboth
    exact FailsWith.bind (failsWith_error (hown _ (.conflictingReturns hboth.1 hboth.2)))
      fun _ h => (by cases h)
  refine (failsWith_parseParameters hown hparameters).bind fun parameters _ => ?_
  refine (failsWith_result hresult).bind fun returns _ => ?_
  refine FailsWith.bind (FailsWith.optionMapM fun callback hmem => ?_) fun _ _ => failsWith_ok _
  have hplace := hcallback _ (List.mem_map.2 ⟨callback, Option.mem_toList.2 hmem, rfl⟩)
  rw [levels_second]
  intro e he
  rcases bind_eq_error_iff.1 he with he | ⟨_, -, he⟩
  · exact hplace e (bind_eq_error_iff.2 (.inl he))
  · cases he

end Signature

theorem failsWith_event (hown : ∀ e, m.Defective path .event depth e → E e)
    (hbelow : ∀ q ∈ below ⟨.event, m, path, room⟩, FailsWith q.parse E) :
    FailsWith (parse ⟨.event, m, path, room⟩) E := by
  show FailsWith (parseEvent _ m path) E
  unfold parseEvent
  rw [below] at hbelow
  dsimp only
  split
  · next hlisteners =>
    cases hoptions : m.options with
    | none =>
      rw [hoptions] at hlisteners
      cases hlisteners
    | some options =>
      rw [hoptions] at hlisteners
      show FailsWith (declarativeEvent options path) E
      unfold declarativeEvent
      split
      · next hconditions =>
        exact failsWith_error (hown _ (.missingDeclarativeList hoptions hlisteners hconditions))
      · next hactions _ =>
        exact failsWith_error (hown _ (.missingDeclarativeList hoptions hlisteners hactions))
      · exact failsWith_ok _
  · next hlisteners =>
    rw [if_neg hlisteners] at hbelow
    obtain ⟨hparameters, hresult⟩ := List.forall_mem_append.1 hbelow
    refine (failsWith_parseParameters hown hparameters).bind fun parameters _ => ?_
    exact FailsWith.bind (failsWith_result hresult) fun returns _ => failsWith_ok _

/-! ### Objects -/

theorem failsWith_object (hown : ∀ e, m.Defective path .type depth e → E e)
    (hbelow : ∀ q ∈ below ⟨.object, m, path, room⟩, FailsWith q.parse E) :
    FailsWith (parse ⟨.object, m, path, room⟩) E := by
  obtain ⟨hmembers, hindex⟩ := List.forall_mem_append.1 hbelow
  obtain ⟨hmembers, hevents⟩ := List.forall_mem_append.1 hmembers
  obtain ⟨hproperties, hfunctions⟩ := List.forall_mem_append.1 hmembers
  -- A name that is given twice among the first members is given twice among all.
  have htwice : ∀ {entries : List MemberEntry}, entries <+: m.memberEntries → ∀ name,
      List.Duplicate (some name) (entries.map (·.name)) → E (.duplicateMember path name) :=
    fun hbefore name hname => hown _ (.duplicateMember (hname.mono_sublist (hbefore.sublist.map _)))
  show FailsWith (parseObject _ m path) E
  unfold parseObject
  dsimp only
  refine Members.failsWith_foldlM_bind (adds_keyed (fun _ _ => rfl) (fun _ _ => rfl) fun _ _ => rfl)
    (Members.rejects_keyed (.missingType path) fun _ _ => rfl) .nil (fun _ _ h => (by cases h)) ?_
    (htwice ((List.prefix_append _ _).trans (List.prefix_append _ _))) fun members hmembers => ?_
  · rw [← keyed_eq_filterMap]
    exact hproperties
  refine Members.failsWith_foldlM_bind (adds_named parseFunction_inside (fun _ _ _ => rfl)
    (fun _ _ _ => rfl) fun _ _ _ => rfl)
    (Members.rejects_named parseFunction_inside fun _ _ _ => rfl) hmembers
    (fun n hn hname => ?_) hfunctions (htwice (List.prefix_append _ _)) fun members hmembers => ?_
  · obtain ⟨nodes, hnodes, hn⟩ := exists_of_mem_getD hn
    exact hown _ (.missingName (.function hnodes hn hname))
  refine Members.failsWith_foldlM_bind (adds_named parseEvent_inside (fun _ _ _ => rfl)
    (fun _ _ _ => rfl) fun _ _ _ => rfl) (Members.rejects_named parseEvent_inside fun _ _ _ => rfl)
    hmembers (fun n hn hname => ?_) hevents (htwice List.prefix_rfl) fun members hmembers => ?_
  · obtain ⟨nodes, hnodes, hn⟩ := exists_of_mem_getD hn
    exact hown _ (.missingName (.event hnodes hn hname))
  refine FailsWith.bind (FailsWith.optionMapM fun index hmem => ?_) fun _ _ => failsWith_ok _
  exact hindex _ (List.mem_map.2 ⟨index, Option.mem_toList.2 hmem, rfl⟩)

/-! ### Types -/

/-- The schema of a setting fails as it does, or because it is ill-typed. -/
theorem failsWith_parseSetting {target : String} (htarget : m.target = some target)
    (hown : ∀ e, m.Defective path .type depth e → E e)
    (hbelow : ∀ q ∈ types path room m.settingSchema?.toList, FailsWith q.parse E) :
    FailsWith (parseSetting (levels room) m path) E := by
  unfold parseSetting
  split
  · next schema hvalue =>
    have hschema : m.settingSchema? = Node.read schema := by rw [Node.settingSchema?, hvalue]
    rw [hschema] at hbelow
    split
    · next hread => exact failsWith_error (hown _ (.settingValue htarget hvalue hread))
    · next schema' hread =>
      rw [hread] at hbelow
      exact FailsWith.bind (hbelow _ (List.mem_singleton_self _)) fun _ _ => failsWith_ok _
  · exact failsWith_ok _

/-- An inferred type is one that a node can declare, and an array only if the node has items. -/
theorem inferredKind?_eq_some {word : String} (h : inferredKind? m = some word) :
    word ∈ typeKeywords ∧ (word = "array" → m.items.isSome = true) := by
  unfold inferredKind? at h
  split at h
  · obtain rfl := Option.some_inj.1 h
    exact ⟨by decide, fun h => absurd h (by decide)⟩
  · split at h
    · next hitems =>
      obtain rfl := Option.some_inj.1 h
      exact ⟨by decide, fun _ => hitems⟩
    · split at h
      · obtain rfl := Option.some_inj.1 h
        exact ⟨by decide, fun h => absurd h (by decide)⟩
      · cases h

/-- A type that cannot have been inferred is declared. -/
theorem kind_eq_of_not_inferred {word : String} (hnot : inferredKind? m ≠ some word)
    (h : (m.kind <|> inferredKind? m) = some word) : m.kind = some word := by
  cases hkind : m.kind with
  | some word' =>
    rw [hkind] at h
    exact h
  | none =>
    rw [hkind] at h
    exact absurd h hnot

theorem failsWith_parseKind {word : String} (hword : (m.kind <|> inferredKind? m) = some word)
    (hown : ∀ e, m.Defective path .type depth e → E e)
    (hbelow : ∀ q ∈ m.belowKind path room word, FailsWith q.parse E) :
    FailsWith (parseKind (levels room) m path word) E := by
  unfold parseKind
  split
  · cases hitems : m.items with
    | none =>
      have hkind := kind_eq_of_not_inferred (fun h => ?_) hword
      · exact failsWith_error (hown _ (.arrayWithoutItems hkind hitems))
      · have hsome := (inferredKind?_eq_some h).2 rfl
        rw [hitems] at hsome
        cases hsome
    | some items =>
      have hplace : ⟨.type, items, path, room⟩ ∈ m.belowKind path room "array" := by
        rw [Node.belowKind, hitems]
        exact List.mem_singleton_self _
      exact FailsWith.bind (hbelow _ hplace) fun _ _ => failsWith_ok _
  case h_11 => exact hbelow ⟨.object, m, path, room⟩ (List.mem_singleton_self _)
  case h_12 => exact hbelow ⟨.function, m, path, room⟩ (List.mem_singleton_self _)
  case h_13 =>
    have hunknown : word ∉ typeKeywords := by simp_all [typeKeywords]
    have hkind := kind_eq_of_not_inferred (fun h => hunknown (inferredKind?_eq_some h).1) hword
    exact failsWith_error (hown _ (.unknownType hkind hunknown))
  all_goals exact failsWith_ok _

theorem failsWith_parseForm (hown : ∀ e, m.Defective path .type depth e → E e)
    (hbelow : ∀ q ∈ m.belowForm path room m.form, FailsWith q.parse E) :
    FailsWith (parseForm (levels room) m path m.form) E := by
  have hsays := m.formSays
  cases hform : m.form with
  | choices items =>
    rw [hform] at hbelow
    refine FailsWith.bind (FailsWith.mapM fun n hn => ?_) fun _ _ => failsWith_ok _
    exact hbelow _ (List.mem_map.2 ⟨n, hn, rfl⟩)
  | enumeration entries => exact failsWith_ok _
  | reference target =>
    rw [hform] at hbelow hsays
    obtain ⟨hsetting, hobject⟩ := List.forall_mem_append.1 hbelow
    refine FailsWith.bind (failsWith_parseSetting hsays hown hsetting) fun arguments _ => ?_
    dsimp only
    split
    · next hproperties =>
      rw [if_pos hproperties] at hobject
      exact FailsWith.bind (hobject _ (List.mem_singleton_self _)) fun _ _ => failsWith_ok _
    · exact failsWith_ok _
  | host target => exact failsWith_ok _
  | literal value => exact failsWith_ok _
  | kind word =>
    rw [hform] at hbelow hsays
    exact failsWith_parseKind hsays hown hbelow
  | untyped =>
    rw [hform] at hsays
    exact failsWith_error (hown _ (.missingType hsays))

/-! ### All places -/

/-- **Where parsing a place fails**, the node has the defect that the error names, or parsing one of
the places below it fails. -/
theorem failsWith_parse {p : Place} (hof : p.reading.Of role)
    (hlevels : maxNesting < depth + p.levelsLeft)
    (hown : ∀ e, p.node.Defective p.path role depth e → E e)
    (hbelow : ∀ q ∈ p.below, FailsWith q.parse E) : FailsWith p.parse E := by
  obtain ⟨reading, m, path, room⟩ := p
  cases hof with
  | type =>
    cases room with
    | zero => exact failsWith_error (hown _ (.nestingTooDeep hlevels))
    | succ room =>
      show FailsWith (parseNode (levels room) m path) E
      rw [parseNode_eq]
      exact failsWith_parseForm hown hbelow
  | object => exact failsWith_object hown hbelow
  | functionType => exact failsWith_function hown hbelow
  | function => exact failsWith_function hown hbelow
  | event => exact failsWith_event hown hbelow
  | callback => exact failsWith_callback hown hbelow

end Place

/-! ### Namespaces -/

namespace NamespaceNode

open Place

variable {n : NamespaceNode}

/-- The members of a namespace are reached from it. -/
theorem located_of_mem_places {q : Place} (hq : q ∈ n.places) : n.Located q := by
  have htypes : maxNesting < 1 + maxNesting := by decide
  have hcalls : maxNesting < 1 + (maxNesting - 1 + 1) := by decide
  simp only [places, List.mem_append] at hq
  rcases hq with ((hq | hq) | hq) | hq
  · obtain ⟨m, hm, hq⟩ := List.mem_filterMap.1 hq
    obtain ⟨id, hid, rfl⟩ := Option.map_eq_some_iff.1 hq
    exact ⟨.type, 1, .type hm hid, .type, htypes⟩
  · obtain ⟨⟨key, m⟩, hm, rfl⟩ := List.mem_map.1 hq
    exact ⟨.type, 1, .property hm, .type, htypes⟩
  · obtain ⟨m, hm, hq⟩ := List.mem_filterMap.1 hq
    obtain ⟨name, hname, rfl⟩ := Option.map_eq_some_iff.1 hq
    exact ⟨.function, 1, .function hm hname, .function, hcalls⟩
  · obtain ⟨m, hm, hq⟩ := List.mem_filterMap.1 hq
    obtain ⟨name, hname, rfl⟩ := Option.map_eq_some_iff.1 hq
    exact ⟨.event, 1, .event hm hname, .event, hcalls⟩

/-- Where a node is reached, errors blame a node. -/
theorem Located.failsWith_parse {p : Place} (h : n.Located p) : FailsWith p.parse n.Blamed := by
  induction p using Place.induction with
  | step p ih =>
    obtain ⟨role, depth, hreach, hof, hlevels⟩ := h
    refine Place.failsWith_parse hof hlevels (fun e he => ?_) fun q hq => ?_
    · exact .inr ⟨role, p.node, p.path, depth, hreach, he⟩
    · exact ih q hq (Located.below ⟨role, depth, hreach, hof, hlevels⟩ hq)

/-- Parsing a namespace fails because it has a defect itself, or as parsing one of its members
does. -/
theorem failsWith_parse {E : SchemaError → Prop} (hname : trim n.name ≠ "")
    (hown : ∀ e, n.Defective e → E e) (hplaces : ∀ q ∈ n.places, FailsWith q.parse E) :
    FailsWith n.parse E := by
  -- A name that is given twice among the first members is given twice among all.
  have htwice : ∀ {entries : List MemberEntry}, entries <+: n.memberEntries → ∀ name,
      List.Duplicate (some name) (entries.map (·.name)) → E (.duplicateMember (trim n.name) name) :=
    fun hbefore name hname => hown _ (.duplicateMember (hname.mono_sublist (hbefore.sublist.map _)))
  unfold places at hplaces
  unfold parse
  -- How many levels there are does not matter.
  generalize maxNesting = room at hplaces ⊢
  obtain ⟨hmembers, hevents⟩ := List.forall_mem_append.1 hplaces
  obtain ⟨hmembers, hfunctions⟩ := List.forall_mem_append.1 hmembers
  obtain ⟨htypes, hproperties⟩ := List.forall_mem_append.1 hmembers
  dsimp only
  rw [if_neg hname]
  refine Members.failsWith_foldlM_bind (adds_types n.localId) (Members.rejects_types n.localId) .nil
    (fun m hm hid => ?_) htypes ?_ fun members hmembers => ?_
  · exact hown _ (.type hm (Option.map_eq_none_iff.1 hid))
  · refine htwice (.trans ?_ (List.prefix_append _ _))
    exact (List.prefix_append _ _).trans (List.prefix_append _ _)
  refine Members.failsWith_foldlM_bind (adds_keyed (fun _ _ => rfl) (fun _ _ => rfl) fun _ _ => rfl)
    (Members.rejects_keyed (.missingType (trim n.name)) fun _ _ => rfl) hmembers
    (fun _ _ h => (by cases h)) ?_ (htwice ?_) fun members hmembers => ?_
  · rw [← keyed_eq_filterMap]
    exact hproperties
  · exact (List.prefix_append _ _).trans (List.prefix_append _ _)
  refine Members.failsWith_foldlM_bind (adds_named parseFunction_inside (fun _ _ _ => rfl)
    (fun _ _ _ => rfl) fun _ _ _ => rfl)
    (Members.rejects_named parseFunction_inside fun _ _ _ => rfl) hmembers
    (fun m hm hname => hown _ (.function hm hname)) hfunctions
    (htwice (List.prefix_append _ _)) fun members hmembers => ?_
  refine Members.failsWith_foldlM_bind (adds_named parseEvent_inside (fun _ _ _ => rfl)
    (fun _ _ _ => rfl) fun _ _ _ => rfl) (Members.rejects_named parseEvent_inside fun _ _ _ => rfl)
    hmembers (fun m hm hname => hown _ (.event hm hname)) hevents (htwice List.prefix_rfl)
    fun members hmembers => failsWith_ok _

/-- **Errors blame a node**: where a namespace that has a name cannot be parsed, a node that is
reached at the path of the error, or the namespace itself, has the defect that the error names. -/
theorem parse_blames {e : SchemaError} (hname : trim n.name ≠ "") (h : n.parse = .error e) :
    n.Blamed e := by
  have hplaces : ∀ q ∈ n.places, FailsWith q.parse n.Blamed := fun q hq =>
    (located_of_mem_places hq).failsWith_parse
  exact failsWith_parse hname (fun e he => .inl he) hplaces e h

/-- A namespace with a function whose completion callback has no name, and a parameter without one.
-/
def unnamedParameter : NamespaceNode where
  name := " tabs "
  functions := [{
    name := some "query"
    returnsAsync := some { parameters := some [{ kind := some "string" }] } }]

/-- The callback is blamed for its parameter. -/
theorem parse_blames_callback :
    trim unnamedParameter.name ≠ "" ∧
      unnamedParameter.parse = .error (.missingName "tabs.query.callback" .parameterNode) ∧
      unnamedParameter.Blamed (.missingName "tabs.query.callback" .parameterNode) := by
  have hname : trim unnamedParameter.name ≠ "" := by decide +kernel
  have hparse : unnamedParameter.parse =
      .error (.missingName "tabs.query.callback" .parameterNode) := by
    have herror : (unnamedParameter.parse.map fun _ => ()) =
        .error (.missingName "tabs.query.callback" .parameterNode) := by decide +kernel
    exact map_eq_error_iff.1 herror
  exact ⟨hname, hparse, parse_blames hname hparse⟩

end NamespaceNode

end ApiTypings
