import ApiTypings.Compiler
import ApiTypings.Proofs.CyclicDependencies
import ApiTypings.Proofs.Marking
/-!
# What a history has to say

A history dates symbols and does nothing else. With any two histories, or with none, a resolver
gives the same answers but for dates (`Resolver.sameButDates_withHistory`), and namespaces are pruned
to the same namespaces but for dates, or with the same error (`Compiler.map_prune_withHistory`).

What is said *but for dates* is said of copies without them: `Availability.undated`,
`ApiType.undated`, `Namespace.undated`. The invariant of the walk is that the surroundings handed on
are the same but for dates. What is new in an availability is told field by field, so apart from
dates it is the same against parents that are the same (`Availability.undated_diff`).
-/

namespace ApiTypings

/-! ### Copies without dates -/

/-- The availability without what a history says. -/
def Availability.undated (a : Availability) : Availability :=
  { a with since := none, deprecatedSince := none, unknownVersion := false }

/-- The annotation without what a history says. -/
def AvailabilityDiff.undated (d : AvailabilityDiff) : AvailabilityDiff :=
  { d with since := none, deprecatedSince := none }

/-- What is new apart from dates does not depend on dates. -/
theorem Availability.undated_diff (a : Availability) (parent : Option Availability) :
    (a.diff parent).undated = (a.undated.diff (parent.map undated)).undated := by
  cases parent <;> rfl

/-- The traits without dates. -/
def Traits.undated (t : Traits) : Traits :=
  { t with feature := t.feature.undated, availability := t.availability.map Availability.undated }

namespace ApiType

mutual

/-- The type without any date in it, also below the types of further members. -/
def undated : ApiType → ApiType
  | .primitive word => .primitive word
  | .literal value => .literal value
  | .number integer minimum maximum => .number integer minimum maximum
  | .reference target arguments => .reference target (undatedItems arguments)
  | .sequence element min max => .sequence element.undated min max
  | .object properties index templates instanceType =>
    .object (undatedProperties properties) (undatedIndex index) templates instanceType
  | .intersection items => .intersection (undatedItems items)
  | .choices items => .choices (undatedItems items)
  | .function parameters returns completion callbackOnly =>
    .function (undatedProperties parameters) (undatedOption returns) (undatedOption completion)
      callbackOnly

/-- Each of the types without dates. -/
def undatedItems : List ApiType → List ApiType
  | [] => []
  | t :: ts => t.undated :: undatedItems ts

/-- The type of further members without dates, if there is one. -/
def undatedIndex : Option ApiType → Option ApiType
  | none => none
  | some t => some t.undated

/-- The property without dates. -/
def undatedProperty : Property ApiType → Property ApiType
  | ⟨traits, name, type⟩ => ⟨traits.undated, name, type.undated⟩

/-- Each of the properties without dates. -/
def undatedProperties : List (Property ApiType) → List (Property ApiType)
  | [] => []
  | p :: ps => undatedProperty p :: undatedProperties ps

/-- The property without dates, if there is one. -/
def undatedOption : Option (Property ApiType) → Option (Property ApiType)
  | none => none
  | some p => some (undatedProperty p)

end

@[simp]
theorem toTraits_undatedProperty (p : Property ApiType) :
    (undatedProperty p).toTraits = p.toTraits.undated := by
  cases p
  rfl

@[simp]
theorem name_undatedProperty (p : Property ApiType) : (undatedProperty p).name = p.name := by
  cases p
  rfl

@[simp]
theorem type_undatedProperty (p : Property ApiType) :
    (undatedProperty p).type = p.type.undated := by
  cases p
  rfl

theorem undatedItems_eq_map (ts : List ApiType) : undatedItems ts = ts.map undated := by
  induction ts with
  | nil => rfl
  | cons t ts ih => rw [undatedItems, ih, List.map_cons]

theorem undatedProperties_eq_map (ps : List (Property ApiType)) :
    undatedProperties ps = ps.map undatedProperty := by
  induction ps with
  | nil => rfl
  | cons p ps ih => rw [undatedProperties, ih, List.map_cons]

/-- What is hidden does not depend on dates. -/
theorem visible_map_undatedProperty (ps : List (Property ApiType)) :
    Property.visible (ps.map undatedProperty) = (Property.visible ps).map undatedProperty := by
  unfold Property.visible
  rw [List.filter_map]
  refine congrArg (List.map undatedProperty) (List.filter_congr fun p _ => ?_)
  rw [Function.comp_apply, toTraits_undatedProperty]
  rfl

end ApiType

namespace Namespace

/-- The namespace without any date in it. -/
def undated (ns : Namespace) : Namespace :=
  { ns with
    members := ApiType.undatedProperties ns.members
    feature := ns.feature.undated
    availability := ns.availability.map Availability.undated }

end Namespace

/-! ### Dropping what is hidden -/

namespace ApiType

theorem visibleInside_undatedProperty {p : Property ApiType}
    (h : p.type.undated.visible = p.type.visible.undated) :
    visibleInside (undatedProperty p) = undatedProperty (visibleInside p) := by
  obtain ⟨traits, name, type⟩ := p
  exact congrArg (Property.mk _ name) h

theorem visibleItems_undated {ts : List ApiType}
    (h : ∀ t ∈ ts, t.undated.visible = t.visible.undated) :
    visibleItems (undatedItems ts) = undatedItems (visibleItems ts) := by
  simp only [visibleItems_eq_map, undatedItems_eq_map, List.map_map]
  exact List.map_congr_left h

theorem visibleProperties_undated {ps : List (Property ApiType)}
    (h : ∀ p ∈ ps, p.type.undated.visible = p.type.visible.undated) :
    visibleProperties (undatedProperties ps) = undatedProperties (visibleProperties ps) := by
  simp only [visibleProperties_eq_map, undatedProperties_eq_map, visible_map_undatedProperty,
    List.map_map]
  exact List.map_congr_left fun p hp =>
    visibleInside_undatedProperty (h p (List.mem_of_mem_filter hp))

theorem visibleResult_undated {p : Option (Property ApiType)}
    (h : ∀ q ∈ p.toList, q.type.undated.visible = q.type.visible.undated) :
    visibleResult (undatedOption p) = undatedOption (visibleResult p) := by
  cases p with
  | none => rfl
  | some p => exact congrArg some (visibleInside_undatedProperty (h p (List.mem_singleton_self p)))

theorem visibleCallback_undated {p : Option (Property ApiType)}
    (h : ∀ q ∈ p.toList, q.type.undated.visible = q.type.visible.undated) :
    visibleCallback (undatedOption p) = undatedOption (visibleCallback p) := by
  cases p with
  | none => rfl
  | some p =>
    rw [undatedOption, visibleCallback, visibleCallback, toTraits_undatedProperty,
      visibleInside_undatedProperty (h p (List.mem_singleton_self p))]
    show (if p.nodoc = true then _ else _) = _
    split <;> rfl

/-- The two copies of a type can be made in any order. -/
theorem visible_undated (t : ApiType) : t.undated.visible = t.visible.undated := by
  induction t using nesting_induction with
  | step t hparts hnested =>
    cases t with
    | primitive | literal | number => rfl
    | reference target arguments =>
      exact congrArg (ApiType.reference target) (visibleItems_undated hparts)
    | sequence element min max =>
      exact congrArg (ApiType.sequence · min max) (hparts element (List.mem_singleton_self _))
    | object properties index templates instanceType =>
      exact congrArg (ApiType.object · _ templates instanceType) (visibleProperties_undated hnested)
    | intersection items => exact congrArg ApiType.intersection (visibleItems_undated hparts)
    | choices items => exact congrArg ApiType.choices (visibleItems_undated hparts)
    | function parameters returns completion callbackOnly =>
      rw [undated, visible, visible, undated,
        visibleProperties_undated fun p hp => hnested p
          (List.mem_append_left _ (List.mem_append_left _ hp)),
        visibleResult_undated fun p hp => hnested p
          (List.mem_append_left _ (List.mem_append_right _ hp)),
        visibleCallback_undated fun p hp => hnested p (List.mem_append_right _ hp)]

end ApiType

theorem Namespace.visible_undated (ns : Namespace) : ns.undated.visible = ns.visible.undated := by
  unfold undated visible
  dsimp only
  split
  · rfl
  · rw [ApiType.visibleProperties_undated fun p _ => p.type.visible_undated]

/-! ### Annotating -/

/-- The surroundings without dates. -/
def Surroundings.undated (s : Surroundings) : Surroundings :=
  { s with availability := s.availability.undated }

namespace Verdict

/-- The verdict without dates. -/
def undated : Verdict → Verdict
  | hidden => hidden
  | shown path a parent => shown path a.undated parent.undated

variable {v w : Verdict}

theorem undated_traits (h : v.undated = w.undated) (old : Traits) :
    (v.traits old).undated = (w.traits old).undated := by
  have hself : ∀ v : Verdict, (v.traits old).undated = (v.undated.traits old).undated := by
    intro v
    cases v <;> rfl
  rw [hself v, hself w, h]

theorem undated_below (h : v.undated = w.undated) (old : Traits) :
    (v.below old).map Surroundings.undated = (w.below old).map Surroundings.undated := by
  have hself : ∀ v : Verdict, (v.below old).map Surroundings.undated = v.undated.below old := by
    intro v
    cases v <;> rfl
  rw [hself, hself, h]

end Verdict

/-- Two resolvers give the same answers but for dates. -/
def Resolver.SameButDates (r r' : Resolver) : Prop :=
  ∀ path, (r.query path).map (Option.map Availability.undated) =
    (r'.query path).map (Option.map Availability.undated)

variable {r r' : Resolver}

/-- In surroundings that are the same but for dates, so are the verdicts. -/
theorem Resolver.SameButDates.map_verdict (hr : r.SameButDates r') {s s' : Option Surroundings}
    (hs : s.map Surroundings.undated = s'.map Surroundings.undated) (old : Traits) (name : String) :
    (Verdict.of r s old name).map Verdict.undated =
      (Verdict.of r' s' old name).map Verdict.undated := by
  cases s with
  | none =>
    cases s' with
    | none => rfl
    | some parent' => cases hs
  | some parent =>
    cases s' with
    | none => cases hs
    | some parent' =>
      have hparent : parent.undated = parent'.undated := Option.some.inj hs
      have hpath : parent.path = parent'.path := (Surroundings.mk.inj hparent).1
      -- The paths are the same, so both ask the same question or none.
      unfold Verdict.of
      dsimp only
      rw [hpath]
      split
      · rfl
      · refine map_bind_congr (hr _) fun answer answer' hanswer => ?_
        cases answer with
        | none =>
          cases answer' with
          | none => rfl
          | some a' => cases hanswer
        | some a =>
          cases answer' with
          | none => cases hanswer
          | some a' =>
            exact congrArg Except.ok
              (congrArg₂ (Verdict.shown _) (Option.some.inj hanswer) hparent)

namespace ApiType

/-- With both resolvers a type is annotated alike but for dates, in surroundings that are the same
but for dates. -/
def AnnotatedAlike (r r' : Resolver) (t : ApiType) : Prop :=
  ∀ s s', s.map Surroundings.undated = s'.map Surroundings.undated →
    (annotate r s t).map undated = (annotate r' s' t).map undated

section

variable {s s' : Option Surroundings} {ts : List ApiType} {ps : List (Property ApiType)}

theorem map_annotateItems_undated (h : ∀ t ∈ ts, AnnotatedAlike r r' t)
    (hs : s.map Surroundings.undated = s'.map Surroundings.undated) :
    (annotateItems r s ts).map undatedItems = (annotateItems r' s' ts).map undatedItems := by
  rw [annotateItems_eq_mapM, annotateItems_eq_mapM, funext undatedItems_eq_map]
  exact map_mapM_congr fun t ht => h t ht s s' hs

theorem map_annotateProperty_undated (hr : r.SameButDates r') {p : Property ApiType}
    (h : AnnotatedAlike r r' p.type)
    (hs : s.map Surroundings.undated = s'.map Surroundings.undated) :
    (annotateProperty r s p).map undatedProperty =
      (annotateProperty r' s' p).map undatedProperty := by
  obtain ⟨old, name, type⟩ := p
  rw [annotateProperty, annotateProperty]
  refine map_bind_congr (hr.map_verdict hs old name) fun v w hvw =>
    map_bind_congr (h _ _ (Verdict.undated_below hvw old)) fun t u htu => ?_
  exact congrArg Except.ok
    (congrArg₂ (Property.mk · name ·) (Verdict.undated_traits hvw old) htu)

theorem map_annotateProperties_undated (hr : r.SameButDates r')
    (h : ∀ p ∈ ps, AnnotatedAlike r r' p.type)
    (hs : s.map Surroundings.undated = s'.map Surroundings.undated) :
    (annotateProperties r s ps).map undatedProperties =
      (annotateProperties r' s' ps).map undatedProperties := by
  rw [annotateProperties_eq_mapM, annotateProperties_eq_mapM, funext undatedProperties_eq_map]
  exact map_mapM_congr fun p hp => map_annotateProperty_undated hr (h p hp) hs

theorem map_annotateOption_undated (hr : r.SameButDates r') {p : Option (Property ApiType)}
    (h : ∀ q ∈ p.toList, AnnotatedAlike r r' q.type)
    (hs : s.map Surroundings.undated = s'.map Surroundings.undated) :
    (annotateOption r s p).map undatedOption = (annotateOption r' s' p).map undatedOption := by
  cases p with
  | none => rfl
  | some p =>
    have hp := map_annotateProperty_undated hr (h p (List.mem_singleton_self p)) hs
    exact map_bind_congr hp fun a b hab => congrArg (Except.ok ∘ some) hab

end

/-- **Types are annotated alike but for dates.** -/
theorem annotatedAlike (hr : r.SameButDates r') (t : ApiType) : AnnotatedAlike r r' t := by
  induction t using nesting_induction with
  | step t hparts hnested =>
    intro s s' hs
    cases t with
    | primitive | literal | number => rfl
    | reference target arguments =>
      refine map_bind_congr (map_annotateItems_undated hparts hs) fun a b hab => ?_
      exact congrArg (Except.ok ∘ ApiType.reference target) hab
    | sequence element min max =>
      refine map_bind_congr (hparts element (List.mem_singleton_self _) s s' hs) fun a b hab => ?_
      exact congrArg (fun t => Except.ok (ApiType.sequence t min max)) hab
    | object properties index templates instanceType =>
      refine map_bind_congr (map_annotateProperties_undated hr hnested hs) fun ps qs hps => ?_
      exact congrArg (fun ps => Except.ok (ApiType.object ps _ templates instanceType)) hps
    | intersection items =>
      refine map_bind_congr (map_annotateItems_undated hparts hs) fun a b hab => ?_
      exact congrArg (Except.ok ∘ ApiType.intersection) hab
    | choices items =>
      refine map_bind_congr (map_annotateItems_undated hparts hs) fun a b hab => ?_
      exact congrArg (Except.ok ∘ ApiType.choices) hab
    | function parameters returns completion callbackOnly =>
      have hparameters := map_annotateProperties_undated hr (fun p hp => hnested p
        (List.mem_append_left _ (List.mem_append_left _ hp))) hs
      have hreturns := map_annotateOption_undated hr (fun p hp => hnested p
        (List.mem_append_left _ (List.mem_append_right _ hp))) hs
      have hcompletion := map_annotateOption_undated hr (fun p hp => hnested p
        (List.mem_append_right _ hp)) hs
      refine map_bind_congr hparameters fun ps qs hps => map_bind_congr hreturns fun a b hab =>
        map_bind_congr hcompletion fun c d hcd => ?_
      show Except.ok (ApiType.function (undatedProperties ps) (undatedOption a) (undatedOption c)
        callbackOnly) = _
      rw [hps, hab, hcd]
      rfl

end ApiType

/-! ### Namespaces -/

namespace Namespace

variable {ns : Namespace}

theorem undated_surroundings (ns : Namespace) {answer answer' : Option Availability}
    (h : answer.map Availability.undated = answer'.map Availability.undated) :
    (ns.surroundings answer).map Surroundings.undated =
      (ns.surroundings answer').map Surroundings.undated := by
  have hself : ∀ answer : Option Availability,
      (ns.surroundings answer).map Surroundings.undated =
        ns.surroundings (answer.map Availability.undated) := by
    intro answer
    unfold surroundings
    cases ns.nodoc <;> cases answer <;> rfl
  rw [hself, hself, h]

theorem undated_withMembers {ms ms' : List (Property ApiType)} {s s' : Option Surroundings}
    (hm : ApiType.undatedProperties ms = ApiType.undatedProperties ms')
    (hs : s.map Surroundings.undated = s'.map Surroundings.undated) :
    (ns.withMembers ms s).undated = (ns.withMembers ms' s').undated := by
  cases s with
  | none =>
    cases s' with
    | none =>
      unfold undated withMembers
      rw [hm]
    | some parent' => cases hs
  | some parent =>
    cases s' with
    | none => cases hs
    | some parent' =>
      have ha : parent.availability.undated = parent'.availability.undated :=
        (Surroundings.mk.inj (Option.some.inj hs)).2.1
      unfold undated withMembers
      dsimp only
      rw [Availability.undated_diff, Availability.undated_diff parent'.availability,
        Option.map_some, Option.map_some, ha, hm]

/-- **A namespace is pruned alike but for dates.** -/
theorem map_prune_undated (hr : r.SameButDates r') (ns : Namespace) :
    (ns.prune r).map undated = (ns.prune r').map undated := by
  have hannotate : (ns.annotate r).map undated = (ns.annotate r').map undated := by
    rw [annotate_eq_bind, annotate_eq_bind]
    refine map_bind_congr (hr ns.name) fun answer answer' hanswer => ?_
    have hs := ns.undated_surroundings hanswer
    refine map_bind_congr (ApiType.map_annotateProperties_undated hr
      (fun p _ => ApiType.annotatedAlike hr p.type) hs) fun ms ms' hms => ?_
    exact congrArg Except.ok (undated_withMembers hms hs)
  have hvisible : ∀ x : Except FeatureError Namespace,
      (x.map visible).map undated = (x.map undated).map visible := by
    intro x
    cases x with
    | error e => rfl
    | ok n => exact congrArg Except.ok n.visible_undated.symm
  rw [prune, prune, hvisible, hvisible, hannotate]

end Namespace

/-! ### Histories -/

namespace Resolver

/-- The resolver with another history, or with none. -/
def withHistory (r : Resolver) (history : Option History) : Resolver :=
  { r with history }

theorem root?_withHistory (r : Resolver) (history : Option History) (path : String) :
    (r.withHistory history).root? path = r.root? path :=
  rfl

theorem undated_dated_eq (r : Resolver) (path : String) (a : Availability) :
    (r.dated path a).undated = a.undated := by
  unfold dated
  split
  · rfl
  · split <;> rfl

/-- **A history dates answers and does nothing else.** -/
theorem sameButDates_withHistory (r : Resolver) (history history' : Option History) :
    (r.withHistory history).SameButDates (r.withHistory history') := by
  intro path
  cases hroot : r.root? path with
  | none =>
    rw [query_eq_of_root_eq_none ((root?_withHistory r history path).trans hroot),
      query_eq_of_root_eq_none ((root?_withHistory r history' path).trans hroot)]
  | some root =>
    rw [query_eq_of_root ((root?_withHistory r history path).trans hroot),
      query_eq_of_root ((root?_withHistory r history' path).trans hroot)]
    refine map_bind_congr_right fun c => map_bind_congr_right fun _ => ?_
    have hgather : (r.withHistory history).gather c c.order {} =
        (r.withHistory history').gather c c.order {} := gather_eq_of_options_eq (by rfl) c _ _
    rw [hgather]
    refine map_bind_congr_right fun bounds => ?_
    have hdated : ∀ r : Resolver, Availability.undated ∘ r.dated path = Availability.undated :=
      fun r => funext (undated_dated_eq r path)
    show Except.ok (((bounds.bind _).map _).map _) = Except.ok (((bounds.bind _).map _).map _)
    rw [Option.map_map, Option.map_map, hdated, hdated]

end Resolver

namespace Compiler

/-- The compiler with another history, or with none. -/
def withHistory (c : Compiler) (history : Option History) : Compiler :=
  { c with resolver := c.resolver.withHistory history }

/-- **A history changes dates and nothing else.** Namespaces are pruned to the same namespaces but for
dates, or with the same error. -/
theorem map_prune_withHistory (c : Compiler) (history history' : Option History)
    (namespaces : List Namespace) :
    ((c.withHistory history).prune namespaces).map (List.map Namespace.undated) =
      ((c.withHistory history').prune namespaces).map (List.map Namespace.undated) := by
  have hr := c.resolver.sameButDates_withHistory history history'
  have hpruned : (namespaces.mapM (Namespace.prune · (c.withHistory history).resolver)).map
      (List.map Namespace.undated) =
        (namespaces.mapM (Namespace.prune · (c.withHistory history').resolver)).map
          (List.map Namespace.undated) :=
    map_mapM_congr fun ns _ => ns.map_prune_undated hr
  have hkept : ∀ x : Except FeatureError (List Namespace),
      (((x.map (·.filter (!·.nodoc))).mapError CompileError.feature).map
          (List.map Namespace.undated)) =
        ((x.map (List.map Namespace.undated)).map (·.filter (!·.nodoc))).mapError .feature := by
    intro x
    cases x with
    | error e => rfl
    | ok ns =>
      have hfilter : (ns.map Namespace.undated).filter (fun n => !n.nodoc) =
          (ns.filter fun n => !n.nodoc).map Namespace.undated := List.filter_map
      exact congrArg Except.ok hfilter.symm
  rw [prune, prune, hkept, hkept, hpruned]

end Compiler

end ApiTypings
