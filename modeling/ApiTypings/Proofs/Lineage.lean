import ApiTypings.Proofs.Nesting
/-!
# Properties and the properties around them

What annotating says about a property depends on the properties that it is nested in, up to the
namespace. A `Lineage` is a property with these properties, nearest first, and `Namespace.lineages`
lists the lineages of all properties that are met from a namespace without crossing the type of
further members of an object, in the order in which they are met.

Annotating a namespace changes neither their number nor their order, so what it does is said of two
lists side by side. `ApiType.forall₂_lineages` is the one induction behind every such statement:
what is known of the surroundings of a property carries over to what is below it.
-/

namespace ApiTypings

/-! ### Lineages -/

/-- A property with the properties that it is nested in, nearest first. -/
structure Lineage where
  property : Property ApiType
  above : List (Property ApiType)

/-- The property and the properties that it is nested in, nearest first. -/
def Lineage.chain (l : Lineage) : List (Property ApiType) :=
  l.property :: l.above

namespace ApiType

/-! ### Nested properties -/

/-- The properties nested in a type itself, in the order of the schema. -/
def nested : ApiType → List (Property ApiType)
  | .object properties _ _ _ => properties
  | .function parameters returns completion _ => parameters ++ returns.toList ++ completion.toList
  | _ => []

theorem mem_nested_of_declared {t : ApiType} {p : Property ApiType} (hp : p ∈ t.declared) :
    p ∈ t.nested := by
  cases t with
  | object => exact hp
  | function parameters returns completion callbackOnly =>
    rcases List.mem_append.1 hp with hp | hp
    · exact List.mem_append_left _ (List.mem_append_left _ hp)
    · exact List.mem_append_right _ hp
  | _ => exact hp

theorem mem_nested_of_results {t : ApiType} {p : Property ApiType} (hp : p ∈ t.results) :
    p ∈ t.nested := by
  cases t with
  | function parameters returns completion callbackOnly =>
    exact List.mem_append_left _ (List.mem_append_right _ hp)
  | _ => exact absurd hp List.not_mem_nil

mutual

/-- The lineages of the properties below a type that is itself nested in the properties `above`. -/
def lineages (above : List (Property ApiType)) : (t : ApiType) → List Lineage
  | .primitive _ => []
  | .literal _ => []
  | .number _ _ _ => []
  | .reference _ arguments => lineagesOfItems above arguments
  | .sequence element _ _ => lineages above element
  | .object properties _ _ _ => lineagesOfProperties above properties
  | .intersection items => lineagesOfItems above items
  | .choices items => lineagesOfItems above items
  | .function parameters returns completion _ =>
    lineagesOfProperties above parameters ++ lineagesOfOption above returns
      ++ lineagesOfOption above completion
termination_by structural t => t

/-- The lineages of the properties below one of the types. -/
def lineagesOfItems (above : List (Property ApiType)) : List ApiType → List Lineage
  | [] => []
  | t :: ts => lineages above t ++ lineagesOfItems above ts
termination_by structural t => t

/-- The lineages of a property and of the properties below it. -/
def lineagesOfProperty (above : List (Property ApiType)) : Property ApiType → List Lineage
  | ⟨traits, name, type⟩ =>
    ⟨⟨traits, name, type⟩, above⟩ :: lineages (⟨traits, name, type⟩ :: above) type
termination_by structural t => t

/-- The lineages of properties and of the properties below them. -/
def lineagesOfProperties (above : List (Property ApiType)) : List (Property ApiType) → List Lineage
  | [] => []
  | p :: ps => lineagesOfProperty above p ++ lineagesOfProperties above ps
termination_by structural t => t

/-- The lineages of a property, if there is one, and of the properties below it. -/
def lineagesOfOption (above : List (Property ApiType)) : Option (Property ApiType) → List Lineage
  | none => []
  | some p => lineagesOfProperty above p
termination_by structural t => t

end

variable {above : List (Property ApiType)}

theorem lineagesOfItems_eq (ts : List ApiType) :
    lineagesOfItems above ts = ts.flatMap (lineages above) := by
  induction ts with
  | nil => rfl
  | cons t ts ih => rw [lineagesOfItems, ih, List.flatMap_cons]

theorem lineagesOfProperty_eq (p : Property ApiType) :
    lineagesOfProperty above p = ⟨p, above⟩ :: lineages (p :: above) p.type := by
  cases p
  rfl

theorem lineagesOfProperties_eq (ps : List (Property ApiType)) :
    lineagesOfProperties above ps = ps.flatMap (lineagesOfProperty above) := by
  induction ps with
  | nil => rfl
  | cons p ps ih => rw [lineagesOfProperties, ih, List.flatMap_cons]

theorem lineagesOfOption_eq (p : Option (Property ApiType)) :
    lineagesOfOption above p = p.toList.flatMap (lineagesOfProperty above) := by
  cases p with
  | none => rfl
  | some p => exact (List.append_nil _).symm

/-- What is met below a type is met below its parts or below the properties nested in it. -/
theorem lineages_eq (t : ApiType) :
    lineages above t =
      t.parts.flatMap (lineages above) ++ t.nested.flatMap (lineagesOfProperty above) := by
  cases t with
  | reference target arguments =>
    exact (lineagesOfItems_eq arguments).trans (List.append_nil _).symm
  | sequence element min max =>
    show lineages above element = (lineages above element ++ []) ++ []
    rw [List.append_nil, List.append_nil]
  | intersection items => exact (lineagesOfItems_eq items).trans (List.append_nil _).symm
  | choices items => exact (lineagesOfItems_eq items).trans (List.append_nil _).symm
  | object properties index templates instanceType => exact lineagesOfProperties_eq properties
  | function parameters returns completion callbackOnly =>
    show lineagesOfProperties above parameters ++ lineagesOfOption above returns
        ++ lineagesOfOption above completion
      = (parameters ++ returns.toList ++ completion.toList).flatMap (lineagesOfProperty above)
    rw [lineagesOfProperties_eq, lineagesOfOption_eq, lineagesOfOption_eq, List.flatMap_append,
      List.flatMap_append]
  | primitive | literal | number => rfl

/-! ### Induction along nesting -/

/-- What holds of a type as soon as it holds of its parts, of the types of the properties nested in it
and of its further members holds of every type. -/
theorem structure_induction {motive : ApiType → Prop}
    (step : ∀ t : ApiType, (∀ a ∈ t.parts, motive a) → (∀ p ∈ t.nested, motive p.type) →
      (∀ i ∈ t.index?, motive i) → motive t)
    (t : ApiType) : motive t := by
  have hnil {α : Type} {P : α → Prop} : ∀ a ∈ ([] : List α), P a := List.forall_mem_nil _
  -- The motives for types, lists of types and of properties, further members, a property that may
  -- be there, and a property.
  refine @ApiType.rec motive (fun ts => ∀ a ∈ ts, motive a) (fun ps => ∀ p ∈ ps, motive p.type)
    (fun index => ∀ i ∈ index, motive i) (fun p => ∀ q ∈ p.toList, motive q.type)
    (fun p => motive p.type)
    ?primitive ?literal ?number ?reference ?sequence ?object ?intersection ?choices ?function
    ?noItems ?items ?noProperties ?properties ?noIndex ?index ?noProperty ?someProperty ?property t
  case primitive => exact fun word => step (.primitive word) hnil hnil forall_mem_none
  case literal => exact fun value => step (.literal value) hnil hnil forall_mem_none
  case number =>
    exact fun integer minimum maximum =>
      step (.number integer minimum maximum) hnil hnil forall_mem_none
  case reference =>
    exact fun target arguments ih => step (.reference target arguments) ih hnil forall_mem_none
  case sequence =>
    exact fun element min max ih =>
      step (.sequence element min max) (List.forall_mem_singleton.2 ih) hnil forall_mem_none
  case object =>
    exact fun properties index templates instanceType ih hindex =>
      step (.object properties index templates instanceType) hnil ih hindex
  case intersection => exact fun items ih => step (.intersection items) ih hnil forall_mem_none
  case choices => exact fun items ih => step (.choices items) ih hnil forall_mem_none
  case function =>
    intro parameters returns completion callbackOnly hparameters hreturns hcompletion
    refine step (.function parameters returns completion callbackOnly) hnil (fun p hp => ?_)
      forall_mem_none
    rcases List.mem_append.1 hp with hp | hp
    · rcases List.mem_append.1 hp with hp | hp
      · exact hparameters p hp
      · exact hreturns p hp
    · exact hcompletion p hp
  case noItems | noProperties | noProperty => exact hnil
  case items => exact fun t ts ht hts => List.forall_mem_cons.2 ⟨ht, hts⟩
  case properties => exact fun p ps hp hps => List.forall_mem_cons.2 ⟨hp, hps⟩
  case noIndex => exact forall_mem_none
  case index =>
    intro i hi j hj
    obtain rfl := Option.mem_some_iff.1 hj
    exact hi
  case someProperty => exact fun p hp => List.forall_mem_singleton.2 hp
  case property => exact fun traits name type ih => ih

/-- The same without further members. -/
theorem nesting_induction {motive : ApiType → Prop}
    (step : ∀ t : ApiType, (∀ a ∈ t.parts, motive a) → (∀ p ∈ t.nested, motive p.type) → motive t)
    (t : ApiType) : motive t :=
  structure_induction (fun t hparts hnested _ => step t hparts hnested) t

/-! ### Annotating along lineages -/

variable {r : Resolver} {s : Option Surroundings} {t t' : ApiType}

/-- The properties nested in an annotated type are the annotated ones. -/
theorem nested_annotate (h : annotate r s t = .ok t') :
    List.Forall₂ (fun p p' => annotateProperty r s p = .ok p') t.nested t'.nested := by
  cases annotated_of_annotate h with
  | object hp => exact hp
  | function hp hr hc =>
    exact List.rel_append (List.rel_append hp (forall₂_of_annotateOption hr))
      (forall₂_of_annotateOption hc)
  | primitive | literal | number | reference | sequence | intersection | choices => exact .nil

/-- **Annotating, said of lineages.** Suppose that what is known (`Known`) of the surroundings of a
property, and of what it is nested in before and after, is known again of whatever is nested in it,
and relates the property before and after (`Related`). Then annotating a type relates all lineages
below it, one by one. -/
theorem forall₂_lineages
    (Known : Option Surroundings → List (Property ApiType) → List (Property ApiType) → Prop)
    {Related : Lineage → Lineage → Prop}
    (step : ∀ s above above' (p : Property ApiType) v type, Known s above above' →
      Verdict.of r s p.toTraits p.name = .ok v →
        Known (v.below p.toTraits) (p :: above) (⟨v.traits p.toTraits, p.name, type⟩ :: above') ∧
          Related ⟨p, above⟩ ⟨⟨v.traits p.toTraits, p.name, type⟩, above'⟩)
    {above above' : List (Property ApiType)} (hknown : Known s above above')
    (h : annotate r s t = .ok t') :
    List.Forall₂ Related (lineages above t) (lineages above' t') := by
  induction t using nesting_induction generalizing s above above' t' with
  | step t hparts hnested =>
    rw [lineages_eq, lineages_eq]
    refine List.rel_append ?_ ?_
    · exact forall₂_flatMap (parts_annotate h) fun a ha a' ha' => hparts a ha hknown ha'
    · refine forall₂_flatMap (nested_annotate h) fun p hp p' hp' => ?_
      obtain ⟨v, type, hv, htype, rfl⟩ := annotateProperty_eq_ok_iff.1 hp'
      obtain ⟨hbelow, hrelated⟩ := step s above above' p v type hknown hv
      rw [lineagesOfProperty_eq, lineagesOfProperty_eq]
      exact .cons hrelated (hnested p hp hbelow htype)

end ApiType

namespace Namespace

/-- The lineages of the properties that are met from a namespace. -/
def lineages (ns : Namespace) : List Lineage :=
  ns.body.lineages []

end Namespace

end ApiTypings
