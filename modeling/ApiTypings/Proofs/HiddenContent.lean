import ApiTypings.Proofs.Marking
/-!
# Hidden content has no influence

What is hidden in a namespace is neither asked for nor left by pruning, so two namespaces that differ
only in hidden members are pruned alike: to the same namespace, or with the same error
(`Namespace.prune_eq_of_agrees`).

* `ApiType.Agrees` says that two types differ in nothing but hidden members.
* `Namespace.prune_visible` is the law behind it: pruning the visible copy of a namespace is pruning
  the namespace. Namespaces that agree have the same visible copy.

A hidden result is not dropped, so it has to agree as well.
-/

namespace ApiTypings

namespace ApiType

/-! ### Types that differ in hidden members -/

mutual

/-- Two types are equal except for members of objects, parameters and completion callbacks that are
hidden in both. Below a type of further members nothing may differ. -/
inductive Agrees : ApiType → ApiType → Prop
  | primitive {word : Primitive} : Agrees (.primitive word) (.primitive word)
  | literal {value : Literal} : Agrees (.literal value) (.literal value)
  | number {integer : Bool} {minimum maximum : Option Double} :
      Agrees (.number integer minimum maximum) (.number integer minimum maximum)
  | reference {target : Reference} {arguments arguments' : List ApiType}
      (ha : List.Forall₂ Agrees arguments arguments') :
      Agrees (.reference target arguments) (.reference target arguments')
  | sequence {element element' : ApiType} {min : Nat} {max : Option Nat}
      (he : Agrees element element') : Agrees (.sequence element min max) (.sequence element' min max)
  | object {properties properties' : List (Property ApiType)} {index : Option ApiType}
      {templates instanceType : Option String}
      (hp : List.Forall₂ AgreesUnlessHidden properties properties') :
      Agrees (.object properties index templates instanceType)
        (.object properties' index templates instanceType)
  | intersection {items items' : List ApiType} (hi : List.Forall₂ Agrees items items') :
      Agrees (.intersection items) (.intersection items')
  | choices {items items' : List ApiType} (hi : List.Forall₂ Agrees items items') :
      Agrees (.choices items) (.choices items')
  | function {parameters parameters' : List (Property ApiType)}
      {returns returns' completion completion' : Option (Property ApiType)} {callbackOnly : Bool}
      (hp : List.Forall₂ AgreesUnlessHidden parameters parameters')
      (hr : List.Forall₂ AgreesInside returns.toList returns'.toList)
      (hc : List.Forall₂ AgreesUnlessHidden completion.toList completion'.toList) :
      Agrees (.function parameters returns completion callbackOnly)
        (.function parameters' returns' completion' callbackOnly)

/-- Two properties differ in nothing but hidden members of their types. -/
inductive AgreesInside : Property ApiType → Property ApiType → Prop
  | mk {p q : Property ApiType} (name_eq : p.name = q.name) (toTraits_eq : p.toTraits = q.toTraits)
      (type : Agrees p.type q.type) : AgreesInside p q

/-- Two properties are hidden, whatever else is in them, or they agree. -/
inductive AgreesUnlessHidden : Property ApiType → Property ApiType → Prop
  | hidden {p q : Property ApiType} (hp : p.nodoc = true) (hq : q.nodoc = true) :
      AgreesUnlessHidden p q
  | inside {p q : Property ApiType} (h : AgreesInside p q) : AgreesUnlessHidden p q

end

variable {t u : ApiType}

theorem AgreesInside.visibleInside_eq {p q : Property ApiType} (h : AgreesInside p q)
    (htype : p.type.Agrees q.type → p.type.visible = q.type.visible) :
    visibleInside p = visibleInside q := by
  obtain ⟨traits, name, type⟩ := p
  obtain ⟨traits', name', type'⟩ := q
  cases h with
  | mk name_eq toTraits_eq type =>
    cases name_eq
    cases toTraits_eq
    rw [visibleInside, visibleInside, htype type]

/-- The visible copy of a list is made of those of its members. -/
theorem visibleProperties_cons_congr {p q : Property ApiType} {ps qs : List (Property ApiType)}
    (hpq : visibleInside p = visibleInside q) (h : visibleProperties ps = visibleProperties qs) :
    visibleProperties (p :: ps) = visibleProperties (q :: qs) := by
  have hnodoc : p.nodoc = q.nodoc := by
    rw [← toTraits_visibleInside p, hpq, toTraits_visibleInside]
  rw [visibleProperties, visibleProperties, hnodoc, hpq, h]

/-- Lists of members that agree have the same visible copies. -/
theorem visibleProperties_eq_of_agrees {ps qs : List (Property ApiType)}
    (h : List.Forall₂ AgreesUnlessHidden ps qs)
    (htype : ∀ p ∈ ps, ∀ u, p.type.Agrees u → p.type.visible = u.visible) :
    visibleProperties ps = visibleProperties qs := by
  induction h with
  | nil => rfl
  | @cons p q ps qs hpq _ ih =>
    have hrest := ih fun p' hp' => htype p' (List.mem_cons_of_mem _ hp')
    cases hpq with
    | hidden hp hq => rw [visibleProperties, visibleProperties, if_pos hp, if_pos hq, hrest]
    | inside hinside =>
      exact visibleProperties_cons_congr
        (hinside.visibleInside_eq (htype p (List.mem_cons_self ..) q.type)) hrest

theorem visibleItems_eq_of_agrees {ts us : List ApiType} (h : List.Forall₂ Agrees ts us)
    (hitem : ∀ t ∈ ts, ∀ u, t.Agrees u → t.visible = u.visible) :
    visibleItems ts = visibleItems us := by
  rw [visibleItems_eq_map, visibleItems_eq_map]
  exact (map_eq_of_forall₂ h fun t ht u htu => (hitem t ht u htu).symm).symm

theorem eq_of_toList_eq {p q : Option (Property ApiType)} (h : p.toList = q.toList) : p = q := by
  rw [← @Option.head?_toList _ p, h, Option.head?_toList]

theorem visibleResult_eq_of_agrees {p q : Option (Property ApiType)}
    (h : List.Forall₂ AgreesInside p.toList q.toList)
    (htype : ∀ p' ∈ p.toList, ∀ u, p'.type.Agrees u → p'.type.visible = u.visible) :
    visibleResult p = visibleResult q := by
  refine eq_of_toList_eq ?_
  rw [toList_visibleResult, toList_visibleResult]
  exact (map_eq_of_forall₂ h fun p' hp' q' hpq => (hpq.visibleInside_eq (htype p' hp' _)).symm).symm

/-- A completion callback is dropped like a parameter. -/
theorem visibleCallback_congr {p q : Option (Property ApiType)}
    (h : visibleProperties p.toList = visibleProperties q.toList) :
    visibleCallback p = visibleCallback q := by
  refine eq_of_toList_eq ?_
  rw [toList_visibleCallback, toList_visibleCallback, ← visibleProperties_eq_map,
    ← visibleProperties_eq_map, h]

/-- **Types that agree have the same visible copy.** -/
theorem Agrees.visible_eq (h : Agrees t u) : t.visible = u.visible := by
  induction t using nesting_induction generalizing u with
  | step t hparts hnested =>
    have hpart : ∀ a ∈ t.parts, ∀ b, a.Agrees b → a.visible = b.visible :=
      fun a ha b hab => hparts a ha hab
    have hproperty : ∀ p ∈ t.nested, ∀ b, p.type.Agrees b → p.type.visible = b.visible :=
      fun p hp b hpb => hnested p hp hpb
    cases h with
    | primitive | literal | number => rfl
    | reference ha => rw [visible, visible, visibleItems_eq_of_agrees ha hpart]
    | sequence he => rw [visible, visible, hpart _ (List.mem_singleton_self _) _ he]
    | object hp => rw [visible, visible, visibleProperties_eq_of_agrees hp hproperty]
    | intersection hi | choices hi => rw [visible, visible, visibleItems_eq_of_agrees hi hpart]
    | function hp hr hc =>
      rw [visible, visible,
        visibleProperties_eq_of_agrees hp fun p hp => hproperty p
          (List.mem_append_left _ (List.mem_append_left _ hp)),
        visibleResult_eq_of_agrees hr fun p hp => hproperty p
          (List.mem_append_left _ (List.mem_append_right _ hp)),
        visibleCallback_congr (visibleProperties_eq_of_agrees hc fun p hp => hproperty p
          (List.mem_append_right _ hp))]

/-! ### Pruning the visible copy -/

variable {r : Resolver} {s : Option Surroundings}

/-- Below what is hidden the resolver is not asked, so no question can be left unanswered. -/
theorem exists_annotate_none (t : ApiType) : ∃ t', annotate r none t = .ok t' := by
  induction t using nesting_induction with
  | step t hparts hnested =>
    refine exists_annotate_iff_nested.2 ⟨hparts, fun p hp => ?_⟩
    obtain ⟨type, htype⟩ := hnested p hp
    exact ⟨_, annotateProperty_eq_ok_iff.2 ⟨.hidden, type, rfl, htype, rfl⟩⟩

theorem exists_annotateProperty_none (p : Property ApiType) :
    ∃ p', annotateProperty r none p = .ok p' := by
  obtain ⟨type, htype⟩ := exists_annotate_none (r := r) p.type
  exact ⟨_, annotateProperty_eq_ok_iff.2 ⟨.hidden, type, rfl, htype, rfl⟩⟩

/-- What is hidden stays so, without a question. -/
theorem exists_annotateProperty_of_nodoc {p : Property ApiType} (hp : p.nodoc = true) :
    ∃ p', annotateProperty r s p = .ok p' ∧ p'.nodoc = true := by
  obtain ⟨type, htype⟩ := exists_annotate_none (r := r) p.type
  have hverdict : Verdict.of r s p.toTraits p.name = .ok .hidden := by
    unfold Verdict.of
    cases s with
    | none => rfl
    | some parent => exact if_pos hp
  exact ⟨_, annotateProperty_eq_ok_iff.2 ⟨.hidden, type, hverdict, htype, rfl⟩, rfl⟩

/-- In any surroundings, the visible copy of a type is annotated like the type, but for what is
hidden. -/
def IgnoresHidden (r : Resolver) (t : ApiType) : Prop :=
  ∀ s, (annotate r s t.visible).map visible = (annotate r s t).map visible

theorem map_annotateProperty_visibleInside {p : Property ApiType} (htype : p.type.IgnoresHidden r) :
    (annotateProperty r s (visibleInside p)).map visibleInside =
      (annotateProperty r s p).map visibleInside := by
  obtain ⟨old, name, type⟩ := p
  rw [visibleInside, annotateProperty, annotateProperty]
  refine map_bind_congr_right fun v => map_bind_congr (htype _) fun t u htu => ?_
  exact congrArg Except.ok (congrArg (Property.mk _ name) htu)

theorem map_annotateItems_visible {ts : List ApiType} (h : ∀ t ∈ ts, t.IgnoresHidden r) :
    (annotateItems r s (visibleItems ts)).map visibleItems =
      (annotateItems r s ts).map visibleItems := by
  rw [annotateItems_eq_mapM, annotateItems_eq_mapM, funext visibleItems_eq_map, List.mapM_map]
  exact map_mapM_congr fun t ht => h t ht s

theorem map_annotateProperties_visible {ps : List (Property ApiType)}
    (h : ∀ p ∈ ps, p.type.IgnoresHidden r) :
    (annotateProperties r s (visibleProperties ps)).map visibleProperties =
      (annotateProperties r s ps).map visibleProperties := by
  induction ps with
  | nil => rfl
  | cons p ps ih =>
    obtain ⟨hp, hps⟩ := List.forall_mem_cons.1 h
    rw [visibleProperties]
    split_ifs with hnodoc
    · -- A hidden property is annotated, but dropped from what that gives.
      obtain ⟨p', hp', hhidden⟩ := exists_annotateProperty_of_nodoc (r := r) (s := s) hnodoc
      rw [ih hps, annotateProperties, hp']
      cases annotateProperties r s ps with
      | error e => rfl
      | ok ps' => exact congrArg Except.ok (if_pos hhidden).symm
    · rw [annotateProperties, annotateProperties]
      refine map_bind_congr (map_annotateProperty_visibleInside hp) fun a b hab =>
        map_bind_congr (ih hps) fun as bs habs => ?_
      exact congrArg Except.ok (visibleProperties_cons_congr hab habs)

theorem map_annotateOption_visibleResult {p : Option (Property ApiType)}
    (h : ∀ p' ∈ p.toList, p'.type.IgnoresHidden r) :
    (annotateOption r s (visibleResult p)).map visibleResult =
      (annotateOption r s p).map visibleResult := by
  cases p with
  | none => rfl
  | some p =>
    refine map_bind_congr (map_annotateProperty_visibleInside (h p (List.mem_singleton_self p)))
      fun a b hab => ?_
    exact congrArg (Except.ok ∘ some) hab

theorem map_annotateOption_visibleCallback {p : Option (Property ApiType)}
    (h : ∀ p' ∈ p.toList, p'.type.IgnoresHidden r) :
    (annotateOption r s (visibleCallback p)).map visibleCallback =
      (annotateOption r s p).map visibleCallback := by
  cases p with
  | none => rfl
  | some p =>
    rw [visibleCallback]
    split_ifs with hnodoc
    · obtain ⟨p', hp', hhidden⟩ := exists_annotateProperty_of_nodoc (r := r) (s := s) hnodoc
      rw [annotateOption, annotateOption, hp']
      exact congrArg Except.ok (if_pos hhidden).symm
    · refine map_bind_congr (map_annotateProperty_visibleInside (h p (List.mem_singleton_self p)))
        fun a b hab => ?_
      exact congrArg Except.ok (visibleCallback_congr (visibleProperties_cons_congr hab rfl))

/-- **Annotating does not look at what is hidden.** -/
theorem ignoresHidden (t : ApiType) : t.IgnoresHidden r := by
  induction t using nesting_induction with
  | step t hparts hnested =>
    intro s
    cases t with
    | primitive | literal | number => rfl
    | reference target arguments =>
      refine map_bind_congr (map_annotateItems_visible hparts) fun a b hab => ?_
      exact congrArg (Except.ok ∘ ApiType.reference target) hab
    | sequence element min max =>
      refine map_bind_congr (hparts element (List.mem_singleton_self _) s) fun a b hab => ?_
      exact congrArg (fun t => Except.ok (ApiType.sequence t min max)) hab
    | object properties index templates instanceType =>
      refine map_bind_congr (map_annotateProperties_visible hnested) fun ps qs hps => ?_
      exact congrArg (fun ps => Except.ok (ApiType.object ps index templates instanceType)) hps
    | intersection items =>
      refine map_bind_congr (map_annotateItems_visible hparts) fun a b hab => ?_
      exact congrArg (Except.ok ∘ ApiType.intersection) hab
    | choices items =>
      refine map_bind_congr (map_annotateItems_visible hparts) fun a b hab => ?_
      exact congrArg (Except.ok ∘ ApiType.choices) hab
    | function parameters returns completion callbackOnly =>
      have hparameters := map_annotateProperties_visible (s := s) fun p hp => hnested p
        (List.mem_append_left _ (List.mem_append_left _ hp))
      have hreturns := map_annotateOption_visibleResult (s := s) fun p hp => hnested p
        (List.mem_append_left _ (List.mem_append_right _ hp))
      have hcompletion := map_annotateOption_visibleCallback (s := s) fun p hp => hnested p
        (List.mem_append_right _ hp)
      refine map_bind_congr hparameters fun ps qs hps => map_bind_congr hreturns fun a b hab =>
        map_bind_congr hcompletion fun c d hcd => ?_
      show Except.ok (ApiType.function (visibleProperties ps) (visibleResult a) (visibleCallback c)
        callbackOnly) = _
      rw [hps, hab, hcd]
      rfl

end ApiType

/-! ### Namespaces -/

namespace Namespace

variable {ns ns' : Namespace}

/-- What is left of a namespace tells members with the same visible copies no further apart. -/
theorem visible_withMembers_congr {ms ms' : List (Property ApiType)} {s : Option Surroundings}
    (h : ApiType.visibleProperties ms = ApiType.visibleProperties ms') :
    (withMembers { ns with members := [] } ms s).visible = (ns.withMembers ms' s).visible := by
  cases s with
  | none => rfl
  | some parent =>
    unfold visible withMembers
    rw [h]

/-- **Pruning does not look at what is hidden**: the visible copy of a namespace is pruned to the
same namespace, or with the same error. -/
theorem prune_visible (ns : Namespace) (r : Resolver) : ns.visible.prune r = ns.prune r := by
  unfold prune
  rw [annotate_eq_bind, annotate_eq_bind, name_visible]
  refine map_bind_congr_right fun answer => ?_
  cases hnodoc : ns.nodoc with
  | true =>
    -- A hidden namespace loses its members before and after they are annotated.
    have hvisible : ns.visible = { ns with members := [] } := if_pos hnodoc
    have hsurroundings : ns.surroundings answer = none := if_pos hnodoc
    have hsurroundings' : ns.visible.surroundings answer = none := by
      rw [hvisible]
      exact if_pos hnodoc
    obtain ⟨members, hmembers⟩ := ApiType.exists_annotateProperties_iff.2
      fun p (_ : p ∈ ns.members) => ApiType.exists_annotateProperty_none (r := r) p
    rw [hsurroundings, hsurroundings', hvisible, hmembers]
    rfl
  | false =>
    have hvisible : ns.visible = { ns with members := ApiType.visibleProperties ns.members } :=
      if_neg (hnodoc ▸ Bool.false_ne_true)
    rw [hvisible]
    refine map_bind_congr
      (ApiType.map_annotateProperties_visible fun p _ => ApiType.ignoresHidden p.type)
      fun ms ms' hms => ?_
    exact congrArg Except.ok (visible_withMembers_congr hms)

/-- Two namespaces are equal except for hidden members and hidden members of members. -/
structure Agrees (ns ns' : Namespace) : Prop where
  rest : { ns' with members := ns.members } = ns
  members : List.Forall₂ ApiType.AgreesUnlessHidden ns.members ns'.members

theorem Agrees.visible_eq (h : ns.Agrees ns') : ns.visible = ns'.visible := by
  obtain ⟨hrest, hmembers⟩ := h
  have hvisible := ApiType.visibleProperties_eq_of_agrees hmembers fun p _ u htype => htype.visible_eq
  rw [← hrest] at hvisible ⊢
  unfold visible
  rw [hvisible]

/-- **Hidden content has no influence.** Two namespaces that differ in nothing but what is hidden in
both are pruned to the same namespace, or with the same error. -/
theorem prune_eq_of_agrees (r : Resolver) (h : ns.Agrees ns') : ns.prune r = ns'.prune r := by
  rw [← prune_visible, h.visible_eq, prune_visible]

/-- A namespace with a hidden member, and a function with a hidden parameter and a hidden callback,
all of one type. -/
def withSecret (secret : ApiType) : Namespace :=
  let hidden (name : String) : Property ApiType := { name := name, type := secret, nodoc := true }
  { name := "a"
    members := [hidden "internals", .plain "T" (.object [.plain "load" (.function
      [.plain "url" (.primitive .string), hidden "token"] none (some (hidden "callback")) false)]
      none none none)] }

/-- Whatever the secret, what is left is the same: the type, the function and its parameter. -/
theorem prune_withSecret :
    (withSecret (.primitive .string)).Agrees (withSecret keyedSecrets.body) ∧
    (withSecret (.primitive .string)).prune internalSecret =
      (withSecret keyedSecrets.body).prune internalSecret ∧
    ((withSecret (.primitive .string)).prune internalSecret).map (fun n => n.lineages.length) =
      .ok 3 := by
  have hagrees : (withSecret (.primitive .string)).Agrees (withSecret keyedSecrets.body) := by
    refine ⟨rfl, .cons (.hidden rfl rfl) (.cons (.inside ⟨rfl, rfl, .object ?_⟩) .nil)⟩
    refine .cons (.inside ⟨rfl, rfl, .function ?_ .nil (.cons (.hidden rfl rfl) .nil)⟩) .nil
    exact .cons (.inside ⟨rfl, rfl, .primitive⟩) (.cons (.hidden rfl rfl) .nil)
  exact ⟨hagrees, prune_eq_of_agrees internalSecret hagrees, by decide +kernel⟩

end Namespace

end ApiTypings
