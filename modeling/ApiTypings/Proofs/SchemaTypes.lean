import ApiTypings.Compiler
import ApiTypings.Proofs.Lowered
import ApiTypings.Proofs.Pruning
import Mathlib.Data.List.Nodup
/-!
# Types that come from schemas

The model has types that no schema writes: references to template parameters, results with a name of
their own, completion callbacks that are no functions. A type that has none of these at any depth is
*regular* (`ApiType.Regular`).

Every type that is parsed is regular (`NamespaceNode.regular_parse`), and pruning keeps types so
(`Namespace.Regular.prune`). Hence what a compiler renders is regular, whatever the texts are
(`Compiler.regular_of_prune`).

What the parsers make of types is said once, of any property that may depend on how many types stand
one inside the other (`Graded`).
-/

namespace ApiTypings

namespace ApiType

/-! ### Regular types -/

/-- The type itself is one that a schema can write: a reference is no template parameter, a result
is named as one, and a completion callback is a function. -/
def RegularRoot : ApiType → Prop
  | .reference target _ => target.generic = false
  | .function _ returns completion _ =>
    (∀ p ∈ returns, p.name = Property.returnName) ∧ ∀ p ∈ completion, p.type.isFunction = true
  | _ => True

/-- A type is regular if it is one that a schema can write, and so is everything below it. -/
inductive Regular : ApiType → Prop
  | intro {t : ApiType} (root : t.RegularRoot) (parts : ∀ a ∈ t.parts, Regular a)
      (nested : ∀ p ∈ t.nested, Regular p.type) (index : ∀ i ∈ t.index?, Regular i) : Regular t

/-- The types of properties are regular. -/
def AllRegular (ps : List (Property ApiType)) : Prop :=
  ∀ p ∈ ps, p.type.Regular

variable {t t' u : ApiType} {r : Resolver} {s : Option Surroundings}

theorem Regular.nested (h : t.Regular) : AllRegular t.nested := by
  cases h with
  | intro _ _ nested => exact nested

theorem Regular.index (h : t.Regular) : ∀ i ∈ t.index?, i.Regular := by
  cases h with
  | intro _ _ _ index => exact index

theorem regular_object {properties : List (Property ApiType)} {index : Option ApiType}
    (hproperties : AllRegular properties) (hindex : ∀ i ∈ index, i.Regular)
    (templates instanceType : Option String) :
    (object properties index templates instanceType).Regular :=
  .intro trivial (List.forall_mem_nil _) hproperties hindex

/-! ### Pruning -/

theorem isFunction_annotate (h : annotate r s t = .ok t') : t'.isFunction = t.isFunction := by
  cases annotated_of_annotate h <;> rfl

theorem isFunction_visible (t : ApiType) : t.visible.isFunction = t.isFunction := by
  cases t <;> rfl

/-- Annotating a property that may be there keeps its name, and whether it is a function. -/
theorem annotateOption_keeps {p p' : Option (Property ApiType)}
    (h : annotateOption r s p = .ok p') :
    ∀ q' ∈ p', ∃ q ∈ p, q'.name = q.name ∧ q'.type.isFunction = q.type.isFunction := by
  intro q' hq'
  obtain ⟨q, hq, hqq'⟩ := exists_left_of_mem (forall₂_of_annotateOption h) (Option.mem_toList.2 hq')
  obtain ⟨v, type, -, htype, rfl⟩ := annotateProperty_eq_ok_iff.1 hqq'
  exact ⟨q, Option.mem_toList.1 hq, rfl, isFunction_annotate htype⟩

theorem RegularRoot.annotate (hroot : t.RegularRoot) (h : annotate r s t = .ok t') :
    t'.RegularRoot := by
  cases annotated_of_annotate h with
  | reference _ => exact hroot
  | function _ hreturns hcompletion =>
    obtain ⟨hname, hfunction⟩ := hroot
    constructor
    · intro p' hp'
      obtain ⟨p, hp, heq, -⟩ := annotateOption_keeps hreturns p' hp'
      rw [heq]
      exact hname p hp
    · intro p' hp'
      obtain ⟨p, hp, -, heq⟩ := annotateOption_keeps hcompletion p' hp'
      rw [heq]
      exact hfunction p hp
  | primitive | literal | number | sequence | object | intersection | choices => trivial

/-- **Annotating** keeps a type regular. -/
theorem Regular.annotate (ht : t.Regular) (h : annotate r s t = .ok t') : t'.Regular := by
  -- The surroundings change on the way down, so the induction is over all of them.
  induction ht generalizing s t' with
  | intro hroot _ _ hindex ihparts ihnested =>
    refine .intro (hroot.annotate h) ?_ ?_ ?_
    · intro a' ha'
      obtain ⟨a, ha, haa'⟩ := exists_left_of_mem (parts_annotate h) ha'
      exact ihparts a ha haa'
    · intro p' hp'
      obtain ⟨p, hp, hpp'⟩ := exists_left_of_mem (nested_annotate h) hp'
      obtain ⟨v, type, -, htype, rfl⟩ := annotateProperty_eq_ok_iff.1 hpp'
      exact ihnested p hp htype
    · rw [index?_annotate h]
      exact hindex

/-- What is nested in what is visible of a type is what is visible of something nested in it. -/
theorem exists_of_mem_nested_visible {p : Property ApiType} (hp : p ∈ t.visible.nested) :
    ∃ q ∈ t.nested, p = visibleInside q := by
  -- Results stay when they are hidden, everything else is dropped.
  have hmem : p ∈ t.visible.declared ∨ p ∈ t.visible.results := by
    cases t with
    | function parameters returns completion callbackOnly =>
      rcases List.mem_append.1 hp with hp | hp
      · rcases List.mem_append.1 hp with hp | hp
        · exact .inl (List.mem_append_left _ hp)
        · exact .inr hp
      · exact .inl (List.mem_append_right _ hp)
    | _ => exact .inl hp
  rcases hmem with hp | hp
  · rw [declared_visible] at hp
    obtain ⟨q, hq, rfl⟩ := List.mem_map.1 hp
    exact ⟨q, mem_nested_of_declared (Property.mem_of_mem_visible hq), rfl⟩
  · rw [results_visible] at hp
    obtain ⟨q, hq, rfl⟩ := List.mem_map.1 hp
    exact ⟨q, mem_nested_of_results hq, rfl⟩

theorem RegularRoot.visible (hroot : t.RegularRoot) : t.visible.RegularRoot := by
  cases t with
  | reference target arguments => exact hroot
  | function parameters returns completion callbackOnly =>
    obtain ⟨hname, hfunction⟩ := hroot
    constructor
    · intro p' hp'
      have hmem := Option.mem_toList.2 hp'
      rw [toList_visibleResult] at hmem
      obtain ⟨p, hp, rfl⟩ := List.mem_map.1 hmem
      rw [name_visibleInside]
      exact hname p (Option.mem_toList.1 hp)
    · intro p' hp'
      have hmem := Option.mem_toList.2 hp'
      rw [toList_visibleCallback] at hmem
      obtain ⟨p, hp, rfl⟩ := List.mem_map.1 hmem
      rw [type_visibleInside, isFunction_visible]
      exact hfunction p (Option.mem_toList.1 (Property.mem_of_mem_visible hp))
  | _ => trivial

/-- **Dropping what is hidden** keeps a type regular. -/
theorem Regular.visible (ht : t.Regular) : t.visible.Regular := by
  induction ht with
  | @intro t hroot _ _ hindex ihparts ihnested =>
    refine .intro hroot.visible ?_ ?_ ?_
    · rw [parts_visible]
      exact List.forall_mem_map.2 ihparts
    · intro p hp
      obtain ⟨q, hq, rfl⟩ := exists_of_mem_nested_visible hp
      rw [type_visibleInside]
      exact ihnested q hq
    · rw [index?_visible]
      exact hindex

theorem Regular.prune (ht : t.Regular) (h : Prunes r s t u) : u.Regular := by
  obtain ⟨annotated, ha, rfl⟩ := h
  exact (ht.annotate ha).visible

end ApiType

/-- A namespace is regular if the types of its members are. -/
def Namespace.Regular (ns : Namespace) : Prop :=
  ApiType.AllRegular ns.members

theorem Namespace.Regular.prune {ns n : Namespace} {r : Resolver} (hns : ns.Regular)
    (h : ns.prune r = .ok n) : n.Regular := by
  obtain ⟨answer, -, hprunes, -⟩ := exists_prunes_body h
  have hbody : ns.body.Regular := ApiType.regular_object hns forall_mem_none none none
  exact (hbody.prune hprunes).nested

/-! ### Parsing -/

open ApiType

section

variable {path : String} {members r : List (Property ApiType)} {p : Property ApiType}

/-- A member is added at the end, if its name is new. -/
theorem addMember_eq_ok_iff :
    addMember path members p = .ok r ↔ p.name ∉ members.map (·.name) ∧ r = members ++ [p] := by
  unfold addMember
  split
  · next h =>
    obtain ⟨q, hq, hname⟩ := List.any_eq_true.1 h
    have hmem : p.name ∈ members.map (·.name) := List.mem_map.2 ⟨q, hq, of_decide_eq_true hname⟩
    exact ⟨fun h => (by cases h), fun h => absurd hmem h.1⟩
  · next h =>
    have hnew : p.name ∉ members.map (·.name) := fun hmem => by
      obtain ⟨q, hq, hname⟩ := List.mem_map.1 hmem
      exact h (List.any_eq_true.2 ⟨q, hq, decide_eq_true hname⟩)
    constructor
    · intro h
      cases h
      exact ⟨hnew, rfl⟩
    · rintro ⟨-, rfl⟩
      rfl

theorem nodup_addMember (h : (members.map (·.name)).Nodup) :
    Gives (addMember path members p) fun members => (members.map (·.name)).Nodup := by
  intro r hr
  obtain ⟨hnew, rfl⟩ := addMember_eq_ok_iff.1 hr
  rw [List.map_append, List.map_singleton]
  exact List.nodup_append_comm.1 (List.nodup_cons.2 ⟨hnew, h⟩)

end

/-- A property of types that may depend on how many of them stand one inside the other: what a schema
can make of types within a bound is within the next one. -/
structure Graded (P : Nat → ApiType → Prop) : Prop where
  mono : ∀ {j k : Nat} {t : ApiType}, j ≤ k → P j t → P k t
  build : ∀ {k : Nat} {t : ApiType}, t.RegularRoot → (∀ a ∈ t.parts, P k a) →
    (∀ p ∈ t.nested, P k p.type) → (∀ i ∈ t.index?, P k i) → P (k + 1) t

/-- The types of properties are within a bound. -/
def AllWithin (P : Nat → ApiType → Prop) (k : Nat) (ps : List (Property ApiType)) : Prop :=
  ∀ p ∈ ps, P k p.type

/-- A parser makes types within a bound. -/
def NodeParser.Within (parse : NodeParser) (P : Nat → ApiType → Prop) (k : Nat) : Prop :=
  ∀ n path, Gives (parse n path) (P k)

/-- The parsers of three levels do, those of the second and the third within a lower bound. -/
structure Levels.Within (l : Levels) (P : Nat → ApiType → Prop) (k : Nat) : Prop where
  first : l.first.Within P (k + 3)
  second : l.second.Within P (k + 1)
  third : l.third.Within P (k + 1)

namespace Graded

variable {P : Nat → ApiType → Prop} {parse inner deeper : NodeParser} {below : Levels}
variable {path : String} {k : Nat} {t : ApiType}

/-- A type that is made of nameless types only. -/
theorem of_parts (hP : Graded P) (hroot : t.RegularRoot) (hparts : ∀ a ∈ t.parts, P k a)
    (hnested : t.nested = []) (hindex : t.index? = none) : P (k + 1) t := by
  refine hP.build hroot hparts ?_ ?_
  · rw [hnested]
    exact List.forall_mem_nil _
  · rw [hindex]
    exact forall_mem_none

/-- A type that is made of nothing. -/
theorem of_bare (hP : Graded P) (hroot : t.RegularRoot) (hparts : t.parts = [])
    (hnested : t.nested = []) (hindex : t.index? = none) : P (k + 1) t := by
  refine hP.of_parts hroot ?_ hnested hindex
  rw [hparts]
  exact List.forall_mem_nil _

theorem of_function (hP : Graded P) {parameters : List (Property ApiType)}
    {returns completion : Option (Property ApiType)} (hparameters : AllWithin P k parameters)
    (hreturns : ∀ p ∈ returns, p.name = Property.returnName ∧ P k p.type)
    (hcompletion : ∀ p ∈ completion, p.type.isFunction = true ∧ P k p.type) (callbackOnly : Bool) :
    P (k + 1) (function parameters returns completion callbackOnly) := by
  refine hP.build ⟨fun p hp => (hreturns p hp).1, fun p hp => (hcompletion p hp).1⟩
    (List.forall_mem_nil _) ?_ forall_mem_none
  intro p hp
  rcases List.mem_append.1 hp with hp | hp
  · rcases List.mem_append.1 hp with hp | hp
    · exact hparameters p hp
    · exact (hreturns p (Option.mem_toList.1 hp)).2
  · exact (hcompletion p (Option.mem_toList.1 hp)).2

theorem gives_addMember {members : List (Property ApiType)} {p : Property ApiType}
    (hmembers : AllWithin P k members) (hp : P k p.type) :
    Gives (addMember path members p) (AllWithin P k) := by
  intro r h
  obtain ⟨-, rfl⟩ := addMember_eq_ok_iff.1 h
  exact List.forall_mem_append.2 ⟨hmembers, List.forall_mem_singleton.2 hp⟩

theorem gives_parseParameters (hparse : parse.Within P k) (nodes : Option (List Node)) :
    Gives (parseParameters parse path nodes) (AllWithin P k) :=
  Gives.mapM fun _ _ => Gives.of_bind fun _ => (hparse _ _).bind fun _ htype => gives_ok htype

/-- A function is made of its parameters and its result, and of its completion callback, which is made
of parameters itself. -/
theorem gives_parseFunction (hP : Graded P) (hinner : inner.Within P (k + 1))
    (hdeeper : deeper.Within P k) (n : Node) :
    Gives (parseFunction inner deeper n path) (P (k + 2)) := by
  unfold parseFunction
  dsimp only
  split
  · exact gives_throw_bind _
  refine (gives_parseParameters hinner _).bind fun parameters hparameters => ?_
  have hreturns : ∀ result : Node, Gives
      (do
        let type ← inner result (member path Property.returnName)
        return result.toProperty Property.returnName type)
      fun p => p.name = Property.returnName ∧ P (k + 1) p.type :=
    fun result => (hinner _ _).bind fun type htype => gives_ok ⟨rfl, htype⟩
  refine (Gives.optionMapM fun result _ => hreturns result).bind fun returns hreturns => ?_
  have hcompletion : ∀ callback : Node, Gives
      (do
        let name := callback.name.getD defaultCallbackName
        let parameters ← parseParameters deeper (member path name) callback.parameters
        return callback.toProperty name (.function parameters none none false))
      fun p => p.type.isFunction = true ∧ P (k + 1) p.type := by
    refine fun callback => (gives_parseParameters hdeeper _).bind fun ps hps => gives_ok ⟨rfl, ?_⟩
    exact hP.of_function hps forall_mem_none forall_mem_none false
  refine (Gives.optionMapM fun callback _ => hcompletion callback).bind
    fun completion hcompletion => gives_ok ?_
  exact hP.of_function hparameters hreturns hcompletion _

/-- A declarative event is made of a function without parameters and of choices of names. -/
theorem gives_declarativeEvent (hP : Graded P) (options : EventOptions) :
    Gives (declarativeEvent options path) (P (k + 3)) := by
  unfold declarativeEvent
  split
  · exact gives_error _
  · exact gives_error _
  · refine gives_ok (hP.of_parts rfl ?_ rfl rfl)
    have hnamed : ∀ names : List String, P (k + 2) (choices (names.map named)) := fun names =>
      hP.of_parts trivial (List.forall_mem_map.2 fun name _ => hP.of_bare rfl rfl rfl rfl) rfl rfl
    have hlistener : P (k + 2) (function [] none none false) :=
      hP.of_bare ⟨forall_mem_none, forall_mem_none⟩ rfl rfl rfl
    simp only [parts, List.forall_mem_cons]
    exact ⟨hlistener, hnamed _, hnamed _, List.forall_mem_nil _⟩

theorem gives_parseEvent (hP : Graded P) (hinner : inner.Within P (k + 1)) (n : Node) :
    Gives (parseEvent inner n path) (P (k + 3)) := by
  unfold parseEvent
  dsimp only
  split
  · exact hP.gives_declarativeEvent _
  · refine (gives_parseParameters hinner _).bind fun parameters hparameters => ?_
    have hreturns : ∀ result : Node, Gives
        (do
          let type ← inner result (member path Property.returnName)
          return { Property.result type with optional := result.optional })
        fun p => p.name = Property.returnName ∧ P (k + 1) p.type :=
      fun result => (hinner _ _).bind fun type htype => gives_ok ⟨rfl, htype⟩
    refine (Gives.optionMapM fun result _ => hreturns result).bind fun returns hreturns => ?_
    have hlistener := hP.of_function hparameters hreturns forall_mem_none false
    exact gives_ok (hP.of_parts rfl (List.forall_mem_singleton.2 hlistener) rfl rfl)

/-- A function inside an object is within the bound of the nodes one level below the object. -/
theorem gives_parseMethod (hP : Graded P) (hbelow : below.Within P k) (n : Node) :
    Gives (parseFunction below.second below.third n path) (P (k + 3)) :=
  hP.gives_parseFunction (fun m path t ht => hP.mono (Nat.le_succ _) (hbelow.second m path t ht))
    hbelow.third n

theorem gives_parseObject (hP : Graded P) (hbelow : below.Within P k) (n : Node) :
    Gives (parseObject below n path) (P (k + 4)) := by
  unfold parseObject
  dsimp only
  -- Properties, functions and events are added to the members in turn.
  refine (Gives.foldlM (P := AllWithin P (k + 3)) (List.forall_mem_nil _)
    fun p _ members hmembers => ?_).bind fun members hmembers => ?_
  · exact (hbelow.first _ _).bind fun type htype => gives_addMember hmembers htype
  refine (Gives.foldlM hmembers fun node _ members hmembers => ?_).bind fun members hmembers => ?_
  · exact Gives.of_bind fun name => (hP.gives_parseMethod hbelow node).bind
      fun type htype => gives_addMember hmembers htype
  refine (Gives.foldlM hmembers fun node _ members hmembers => ?_).bind fun members hmembers => ?_
  · exact Gives.of_bind fun name => (hP.gives_parseEvent hbelow.second node).bind
      fun type htype => gives_addMember hmembers htype
  refine (Gives.optionMapM fun node _ => hbelow.first node path).bind fun index hindex => ?_
  exact gives_ok (hP.build trivial (List.forall_mem_nil _) hmembers hindex)

theorem gives_parseSetting (hbelow : below.Within P k) (n : Node) :
    Gives (parseSetting below n path) fun ts => ∀ t ∈ ts, P (k + 3) t := by
  unfold parseSetting
  split
  · split
    · exact gives_error _
    · exact (hbelow.first _ _).bind fun t ht => gives_ok (List.forall_mem_singleton.2 ht)
  · exact gives_ok (List.forall_mem_nil _)

theorem gives_parseKind (hP : Graded P) (hbelow : below.Within P k) (n : Node) (kind : String) :
    Gives (parseKind below n path kind) (P (k + 4)) := by
  unfold parseKind
  split
  · split
    · exact gives_error _
    · exact (hbelow.first _ _).bind fun t ht =>
        gives_ok (hP.of_parts trivial (List.forall_mem_singleton.2 ht) rfl rfl)
  -- Objects and functions are made of further types, the remaining kinds of nothing.
  case h_11 => exact hP.gives_parseObject hbelow n
  case h_12 =>
    have hsecond : below.second.Within P (k + 2) := fun m path t ht =>
      hP.mono (Nat.le_succ _) (hbelow.second m path t ht)
    exact hP.gives_parseFunction hbelow.first hsecond n
  case h_13 => exact gives_error _
  all_goals
    refine gives_ok (hP.of_bare ?_ rfl rfl rfl)
    trivial

theorem of_enumEntry (hP : Graded P) (e : EnumEntry) : P (k + 1) e.toType := by
  cases e <;> exact hP.of_bare trivial rfl rfl rfl

/-- **A node** is within a bound two above that of the nodes one level below it: a reference with
properties of its own is an intersection around an object. -/
theorem gives_parseNode (hP : Graded P) (hbelow : below.Within P k) (n : Node) :
    Gives (parseNode below n path) (P (k + 5)) := by
  unfold parseNode
  split
  · refine (Gives.mapM fun node _ => hbelow.first node path).bind fun items hitems => gives_ok ?_
    exact hP.mono (Nat.le_succ _) (hP.of_parts trivial hitems rfl rfl)
  · exact gives_ok (hP.of_parts trivial (List.forall_mem_map.2 fun e _ => hP.of_enumEntry e) rfl rfl)
  · refine (gives_parseSetting hbelow n).bind fun arguments harguments => ?_
    have hreference : ∀ name, P (k + 4) (reference ⟨name, false, false⟩ arguments) := fun name =>
      hP.of_parts rfl harguments rfl rfl
    dsimp only
    split
    · refine (hP.gives_parseObject hbelow n).bind fun object hobject => gives_ok ?_
      exact hP.of_parts trivial
        (List.forall_mem_cons.2 ⟨hreference _, List.forall_mem_singleton.2 hobject⟩) rfl rfl
    · exact gives_ok (hP.mono (Nat.le_succ _) (hreference _))
  · exact gives_ok (hP.of_bare rfl rfl rfl rfl)
  · exact gives_ok (hP.of_bare trivial rfl rfl rfl)
  · split
    · exact gives_error _
    · exact fun t ht => hP.mono (Nat.le_succ _) (hP.gives_parseKind hbelow n _ t ht)

/-- **Every level of the parser** makes types within a bound that the levels that are left give. -/
theorem within_levels (hP : Graded P) (room : Nat) : (levels room).Within P (2 * room) := by
  induction room with
  | zero => exact ⟨fun _ _ => gives_error _, fun _ _ => gives_error _, fun _ _ => gives_error _⟩
  | succ room ih =>
    refine ⟨fun n path => hP.gives_parseNode ih n, ih.first, fun n path t ht => ?_⟩
    exact hP.mono (by omega) (ih.second n path t ht)

/-- The members of a namespace that is parsed are added one by one, each of a type within one bound. So
what holds of no members, and is kept when such a member is added, holds of them. -/
theorem members_parse (hP : Graded P) {I : List (Property ApiType) → Prop} (hnil : I [])
    (hadd : ∀ path members p, I members → P (2 * maxNesting + 3) p.type →
      Gives (addMember path members p) I)
    (n : NamespaceNode) : Gives n.parse fun ns => I ns.members := by
  have htop : (levels maxNesting).Within P (2 * maxNesting) := hP.within_levels maxNesting
  unfold NamespaceNode.parse
  dsimp only
  split
  · exact gives_throw_bind _
  -- Types, properties, functions and events come in turn.
  refine (Gives.foldlM hnil fun node _ members hmembers => ?_).bind fun members hmembers => ?_
  · split
    · exact (htop.first _ _).bind fun type htype => hadd _ _ _ hmembers htype
    · exact gives_error _
  refine (Gives.foldlM hmembers fun p _ members hmembers => ?_).bind fun members hmembers => ?_
  · exact (htop.first _ _).bind fun type htype => hadd _ _ _ hmembers htype
  refine (Gives.foldlM hmembers fun node _ members hmembers => ?_).bind fun members hmembers => ?_
  · exact Gives.of_bind fun name => (hP.gives_parseMethod htop node).bind
      fun type htype => hadd _ _ _ hmembers htype
  refine (Gives.foldlM hmembers fun node _ members hmembers => ?_).bind fun members hmembers => ?_
  · exact Gives.of_bind fun name => (hP.gives_parseEvent htop.second node).bind
      fun type htype => hadd _ _ _ hmembers htype
  exact gives_ok hmembers

/-- The types of all members are within that bound. -/
theorem allWithin_parse (hP : Graded P) (n : NamespaceNode) :
    Gives n.parse fun ns => AllWithin P (2 * maxNesting + 3) ns.members :=
  hP.members_parse (List.forall_mem_nil _) (fun _ _ _ hmembers hp => gives_addMember hmembers hp) n

end Graded

/-- Regularity is within any bound. -/
theorem graded_regular : Graded fun _ => ApiType.Regular :=
  ⟨fun _ h => h, fun hroot hparts hnested hindex => .intro hroot hparts hnested hindex⟩

namespace NamespaceNode

/-- What holds of no members, and is kept when a member of a regular type is added, holds of the
members of a namespace that is parsed. -/
theorem members_parse {I : List (Property ApiType) → Prop} (hnil : I [])
    (hadd : ∀ path members p, I members → p.type.Regular → Gives (addMember path members p) I)
    (n : NamespaceNode) : Gives n.parse fun ns => I ns.members :=
  graded_regular.members_parse hnil hadd n

/-- **Every namespace that is parsed** is regular. -/
theorem regular_parse (n : NamespaceNode) : Gives n.parse Namespace.Regular :=
  graded_regular.allWithin_parse n

end NamespaceNode

/-- What holds of every namespace that a node writes holds of all namespaces of a text. -/
theorem forall_parseSchema {P : Namespace → Prop} (h : ∀ n : NamespaceNode, Gives n.parse P)
    (text : String) : Gives (parseSchema text) fun namespaces => ∀ ns ∈ namespaces, P ns := by
  unfold parseSchema
  split
  · exact gives_error _
  · exact Gives.mapM fun n _ => h n

namespace Compiler

variable {c : Compiler} {texts : List String} {namespaces pruned : List Namespace}

theorem forall_of_parse {P : Namespace → Prop} (h : ∀ n : NamespaceNode, Gives n.parse P)
    (hparse : parse texts = .ok namespaces) : ∀ ns ∈ namespaces, P ns := by
  obtain ⟨files, hfiles, rfl⟩ := map_eq_ok_iff.1 (mapError_eq_ok_iff.1 hparse)
  have hall : ∀ file ∈ files, ∀ ns ∈ file, P ns :=
    Gives.mapM (fun text _ => forall_parseSchema h text) files hfiles
  intro ns hns
  obtain ⟨file, hfile, hns⟩ := List.mem_flatten.1 hns
  exact hall file hfile ns hns

/-- **What a compiler renders** is regular, whatever the texts and the features are. -/
theorem regular_of_prune (hparse : parse texts = .ok namespaces)
    (h : c.prune namespaces = .ok pruned) :
    ∀ ns ∈ pruned, ns.Regular := by
  obtain ⟨all, hall, rfl⟩ := map_eq_ok_iff.1 (mapError_eq_ok_iff.1 h)
  intro n hn
  obtain ⟨ns, hns, hprune⟩ := exists_left_of_mem (mapM_eq_ok_iff.1 hall) (List.mem_of_mem_filter hn)
  exact (forall_of_parse (·.regular_parse) hparse ns hns).prune hprune

end Compiler

end ApiTypings
