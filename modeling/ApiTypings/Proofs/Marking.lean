import ApiTypings.Proofs.Lineage
import ApiTypings.Proofs.Pruning
/-!
# What annotating a namespace says

`Namespace.annotate` goes down from a namespace and hands on three things: the path, the
availability and the deprecation. Here the same is said of every property by itself, by looking up
its lineage: whether it is hidden (`Namespace.Hidden`), at which path it stands (`Namespace.place`)
and which deprecation is the nearest one (`Namespace.deprecation`).

* `ApiType.Governs` is the invariant of the walk: the surroundings handed on agree with the lineage.
* `ApiType.mapTraits_annotate` is the frame: only the marks of a property change.
* `ApiType.exists_annotate_iff` says when the walk succeeds.
* `Namespace.annotate_exact` puts them together.
-/

namespace ApiTypings

/-! ### Marks -/

/-- The traits without what annotating sets. -/
def Traits.unmarked (t : Traits) : Traits :=
  { t with nodoc := false, deprecated := none, feature := {}, availability := none }

theorem Verdict.unmarked_traits (v : Verdict) (old : Traits) :
    (v.traits old).unmarked = old.unmarked := by
  cases v <;> rfl

namespace ApiType

mutual

/-- The type with other traits of every property that is met below it without crossing the type of
further members. -/
def mapTraits (f : Traits → Traits) : ApiType → ApiType
  | .primitive word => .primitive word
  | .literal value => .literal value
  | .number integer minimum maximum => .number integer minimum maximum
  | .reference target arguments => .reference target (mapTraitsOfItems f arguments)
  | .sequence element min max => .sequence (mapTraits f element) min max
  | .object properties index templates instanceType =>
    .object (mapTraitsOfProperties f properties) index templates instanceType
  | .intersection items => .intersection (mapTraitsOfItems f items)
  | .choices items => .choices (mapTraitsOfItems f items)
  | .function parameters returns completion callbackOnly =>
    .function (mapTraitsOfProperties f parameters) (mapTraitsOfOption f returns)
      (mapTraitsOfOption f completion) callbackOnly

/-- Each of the types with other traits below it. -/
def mapTraitsOfItems (f : Traits → Traits) : List ApiType → List ApiType
  | [] => []
  | t :: ts => mapTraits f t :: mapTraitsOfItems f ts

/-- The property with other traits, also below it. -/
def mapTraitsOfProperty (f : Traits → Traits) : Property ApiType → Property ApiType
  | ⟨traits, name, type⟩ => ⟨f traits, name, mapTraits f type⟩

/-- Each of the properties with other traits. -/
def mapTraitsOfProperties (f : Traits → Traits) :
    List (Property ApiType) → List (Property ApiType)
  | [] => []
  | p :: ps => mapTraitsOfProperty f p :: mapTraitsOfProperties f ps

/-- The property with other traits, if there is one. -/
def mapTraitsOfOption (f : Traits → Traits) : Option (Property ApiType) → Option (Property ApiType)
  | none => none
  | some p => some (mapTraitsOfProperty f p)

end

variable {r : Resolver} {f : Traits → Traits}

theorem mapTraitsOfItems_eq (ts : List ApiType) : mapTraitsOfItems f ts = ts.map (mapTraits f) := by
  induction ts with
  | nil => rfl
  | cons t ts ih => rw [mapTraitsOfItems, ih, List.map_cons]

theorem mapTraitsOfProperties_eq (ps : List (Property ApiType)) :
    mapTraitsOfProperties f ps = ps.map (mapTraitsOfProperty f) := by
  induction ps with
  | nil => rfl
  | cons p ps ih => rw [mapTraitsOfProperties, ih, List.map_cons]

theorem mapTraitsOfOption_annotate {s : Option Surroundings} {p p' : Option (Property ApiType)}
    (h : annotateOption r s p = .ok p')
    (hmap : ∀ q ∈ p.toList, ∀ q', annotateProperty r s q = .ok q' →
      mapTraitsOfProperty f q' = mapTraitsOfProperty f q) :
    mapTraitsOfOption f p' = mapTraitsOfOption f p := by
  cases p with
  | none =>
    cases h
    rfl
  | some p =>
    obtain ⟨p', hp, h⟩ := bind_eq_ok_iff.1 h
    cases h
    exact congrArg some (hmap p (List.mem_singleton_self p) p' hp)

/-- **Annotating changes nothing but marks**: what no verdict changes is as before. -/
theorem mapTraits_annotate (hf : ∀ v old, f (Verdict.traits v old) = f old)
    {s : Option Surroundings} {t t' : ApiType} (h : annotate r s t = .ok t') :
    mapTraits f t' = mapTraits f t := by
  induction t using nesting_induction generalizing s t' with
  | step t hparts hnested =>
    have hproperty : ∀ p ∈ t.nested, ∀ p', annotateProperty r s p = .ok p' →
        mapTraitsOfProperty f p' = mapTraitsOfProperty f p := by
      intro p hp p' hp'
      obtain ⟨v, type, -, htype, rfl⟩ := annotateProperty_eq_ok_iff.1 hp'
      show Property.mk (f (v.traits p.toTraits)) p.name (mapTraits f type) = _
      rw [hf, hnested p hp htype]
      cases p
      rfl
    cases annotated_of_annotate h with
    | primitive | literal | number => rfl
    | reference ha =>
      simp only [mapTraits, mapTraitsOfItems_eq]
      rw [map_eq_of_forall₂ ha fun a hmem _ ha' => hparts a hmem ha']
    | sequence he =>
      simp only [mapTraits]
      rw [hparts _ (List.mem_singleton_self _) he]
    | object hp =>
      simp only [mapTraits, mapTraitsOfProperties_eq]
      rw [map_eq_of_forall₂ hp hproperty]
    | intersection hi | choices hi =>
      simp only [mapTraits, mapTraitsOfItems_eq]
      rw [map_eq_of_forall₂ hi fun a hmem _ ha' => hparts a hmem ha']
    | function hp hr hc =>
      simp only [mapTraits, mapTraitsOfProperties_eq]
      rw [map_eq_of_forall₂ hp fun p hmem => hproperty p
          (List.mem_append_left _ (List.mem_append_left _ hmem)),
        mapTraitsOfOption_annotate hr fun p hmem => hproperty p
          (List.mem_append_left _ (List.mem_append_right _ hmem)),
        mapTraitsOfOption_annotate hc fun p hmem => hproperty p (List.mem_append_right _ hmem)]

theorem mapTraitsOfProperties_annotate (hf : ∀ v old, f (Verdict.traits v old) = f old)
    {s : Option Surroundings} {ps ps' : List (Property ApiType)}
    (h : annotateProperties r s ps = .ok ps') :
    mapTraitsOfProperties f ps' = mapTraitsOfProperties f ps := by
  have hobject : annotate r s (.object ps none none none) = .ok (.object ps' none none none) :=
    bind_eq_ok_iff.2 ⟨ps', h, rfl⟩
  exact (ApiType.object.inj (mapTraits_annotate hf hobject)).1

end ApiType

/-! ### Looking up a lineage -/

namespace Namespace

/-- The dotted path of a chain of nested properties, given from the innermost outwards. -/
def place (ns : Namespace) : List (Property ApiType) → String
  | [] => ns.name
  | p :: above => member (ns.place above) p.name

/-- The innermost of nested properties, any property around it, or the namespace is hidden or not
available. -/
def Hidden (r : Resolver) (ns : Namespace) : List (Property ApiType) → Prop
  | [] => ns.nodoc = true ∨ r.query ns.name = .ok none
  | p :: above => p.nodoc = true ∨ r.query (ns.place (p :: above)) = .ok none ∨ ns.Hidden r above

/-- The innermost of nested properties, every property around it, and the namespace are shown. -/
def Shown (r : Resolver) (ns : Namespace) : List (Property ApiType) → Prop
  | [] => ns.nodoc = false ∧ ∃ a, r.query ns.name = .ok (some a)
  | p :: above => r.Shows (ns.place (p :: above)) p.toTraits ∧ ns.Shown r above

/-- The nearest deprecation: that of the innermost of nested properties, or else of the nearest one
around it, the namespace being the last. -/
def deprecation (ns : Namespace) : List (Property ApiType) → Option String
  | [] => ns.deprecated
  | p :: above => p.deprecated <|> ns.deprecation above

/-- The availability of what a property is nested in: of the innermost property around it, or of the
namespace. -/
def availabilityAround (ns : Namespace) : List (Property ApiType) → Option Availability
  | [] => ns.availability
  | p :: _ => p.availability

/-- Nothing is both hidden and shown. -/
theorem Shown.not_hidden {r : Resolver} {ns : Namespace} {chain : List (Property ApiType)}
    (h : ns.Shown r chain) : ¬ns.Hidden r chain := by
  induction chain with
  | nil =>
    obtain ⟨hnodoc, a, ha⟩ := h
    rintro (hhidden | hnone)
    · rw [hnodoc] at hhidden
      cases hhidden
    · rw [ha] at hnone
      cases hnone
  | cons p above ih =>
    obtain ⟨⟨hnodoc, a, ha⟩, habove⟩ := h
    rintro (hhidden | hnone | hhidden)
    · rw [hnodoc] at hhidden
      cases hhidden
    · rw [ha] at hnone
      cases hnone
    · exact ih habove hhidden

/-- What annotating `ns` to `n` says of a property, with its lineage before (`l`) and after (`l'`).
-/
structure Marked (r : Resolver) (ns n : Namespace) (l l' : Lineage) : Prop where
  /-- Hidden is what was hidden or not available, and all below it. -/
  hidden_iff : l'.property.nodoc = true ↔ ns.Hidden r l.chain
  /-- All else has its availability, what is new in it, and the nearest deprecation. -/
  shown : l'.property.nodoc = false → ∃ a around,
    r.query (ns.place l.chain) = .ok (some a) ∧ l'.property.availability = some a ∧
      n.availabilityAround l'.above = some around ∧
        l'.property.feature = a.diff (some around) ∧
          l'.property.deprecated = ns.deprecation l.chain

end Namespace

/-! ### The invariant of the walk -/

namespace ApiType

variable {r : Resolver} {ns : Namespace} {above : List (Property ApiType)}
  {s : Option Surroundings} {p : Property ApiType} {v : Verdict}

/-- The surroundings that are handed on below nested properties agree with the properties: there are
none if anything is hidden, and else they are path, availability and deprecation. -/
structure Governs (r : Resolver) (ns : Namespace) (above : List (Property ApiType))
    (s : Option Surroundings) : Prop where
  hidden : s = none → ns.Hidden r above
  shown : ∀ parent, s = some parent → ns.Shown r above ∧
    parent.path = ns.place above ∧ r.query (ns.place above) = .ok (some parent.availability) ∧
      parent.deprecated = ns.deprecation above

/-- A verdict hands on surroundings that agree with the property as well. -/
theorem Governs.below (hs : Governs r ns above s)
    (hv : Verdict.of r s p.toTraits p.name = .ok v) :
    Governs r ns (p :: above) (v.below p.toTraits) := by
  rcases Verdict.of_cases hv with ⟨rfl, hhidden⟩ | ⟨parent, a, rfl, hnodoc, ha, rfl⟩
  · refine ⟨fun _ => ?_, fun _ hparent => by cases hparent⟩
    cases s with
    | none => exact .inr (.inr (hs.hidden rfl))
    | some parent =>
      cases hnodoc : p.nodoc with
      | true => exact .inl hnodoc
      | false =>
        have hnone := hhidden parent rfl hnodoc
        rw [(hs.shown parent rfl).2.1] at hnone
        exact .inr (.inl hnone)
  · obtain ⟨habove, hpath, -, hdeprecated⟩ := hs.shown parent rfl
    rw [hpath] at ha ⊢
    refine ⟨fun hnone => absurd hnone (Option.some_ne_none _), fun _ hparent => ?_⟩
    cases hparent
    exact ⟨⟨⟨hnodoc, a, ha⟩, habove⟩, rfl, ha, congrArg (p.deprecated <|> ·) hdeprecated⟩

/-- A verdict hides exactly what is hidden by its lineage. -/
theorem Governs.nodoc_traits_iff (hs : Governs r ns above s)
    (hv : Verdict.of r s p.toTraits p.name = .ok v) :
    (v.traits p.toTraits).nodoc = true ↔ ns.Hidden r (p :: above) := by
  have hbelow := hs.below hv
  cases v with
  | hidden => exact ⟨fun _ => hbelow.hidden rfl, fun _ => rfl⟩
  | shown path a parent =>
    obtain ⟨hshown, -⟩ := hbelow.shown _ rfl
    refine ⟨fun hnodoc => ?_, fun hhidden => absurd hhidden hshown.not_hidden⟩
    have hnot : p.nodoc = false := hshown.1.1
    exact absurd (hnot.symm.trans hnodoc) Bool.false_ne_true

/-! ### When the walk succeeds -/

theorem exists_annotateItems_iff {ts : List ApiType} :
    (∃ ts', annotateItems r s ts = .ok ts') ↔ ∀ t ∈ ts, ∃ t', annotate r s t = .ok t' := by
  rw [annotateItems_eq_mapM, exists_mapM_eq_ok_iff]

theorem exists_annotateProperties_iff {ps : List (Property ApiType)} :
    (∃ ps', annotateProperties r s ps = .ok ps') ↔
      ∀ p ∈ ps, ∃ p', annotateProperty r s p = .ok p' := by
  rw [annotateProperties_eq_mapM, exists_mapM_eq_ok_iff]

theorem exists_annotateOption_iff {p : Option (Property ApiType)} :
    (∃ p', annotateOption r s p = .ok p') ↔
      ∀ q ∈ p.toList, ∃ q', annotateProperty r s q = .ok q' := by
  cases p with
  | none => exact ⟨fun _ _ hq => absurd hq List.not_mem_nil, fun _ => ⟨none, rfl⟩⟩
  | some p =>
    rw [Option.toList_some, List.forall_mem_singleton, annotateOption]
    simp only [exists_bind_eq_ok_iff, exists_pure_eq_ok_iff, and_true]

/-- A type is annotated if its parts and the properties nested in it are. -/
theorem exists_annotate_iff_nested {t : ApiType} :
    (∃ t', annotate r s t = .ok t') ↔
      (∀ a ∈ t.parts, ∃ a', annotate r s a = .ok a') ∧
        ∀ p ∈ t.nested, ∃ p', annotateProperty r s p = .ok p' := by
  have hnil {α : Type} {P : α → Prop} : (∀ a ∈ ([] : List α), P a) ↔ True :=
    iff_true_intro fun _ ha => absurd ha List.not_mem_nil
  cases t with
  | primitive | literal | number =>
    exact ⟨fun _ => ⟨hnil.2 trivial, hnil.2 trivial⟩, fun _ => ⟨_, rfl⟩⟩
  | reference | intersection | choices =>
    simp only [annotate, parts, nested, exists_bind_eq_ok_iff, exists_pure_eq_ok_iff, and_true,
      hnil, exists_annotateItems_iff]
  | sequence element min max =>
    simp only [annotate, parts, nested, exists_bind_eq_ok_iff, exists_pure_eq_ok_iff, and_true,
      hnil, List.forall_mem_singleton]
  | object properties index templates instanceType =>
    simp only [annotate, parts, nested, exists_bind_eq_ok_iff, exists_pure_eq_ok_iff, and_true,
      true_and, hnil, exists_annotateProperties_iff]
  | function parameters returns completion callbackOnly =>
    simp only [annotate, parts, nested, exists_bind_eq_ok_iff, exists_pure_eq_ok_iff, and_true,
      true_and, hnil, exists_and_right, exists_annotateProperties_iff, exists_annotateOption_iff,
      List.forall_mem_append, and_assoc]

/-- There is a verdict on a property unless it is asked for and the answer is an error. It is asked
for only if it is not hidden, in surroundings that are shown. -/
theorem Governs.exists_verdict_iff (hs : Governs r ns above s) :
    (∃ v, Verdict.of r s p.toTraits p.name = .ok v) ↔
      (ns.Shown r above → p.nodoc = false →
        ∃ answer, r.query (ns.place (p :: above)) = .ok answer) := by
  unfold Verdict.of
  cases s with
  | none =>
    exact ⟨fun _ hshown => absurd (hs.hidden rfl) hshown.not_hidden, fun _ => ⟨.hidden, rfl⟩⟩
  | some parent =>
    obtain ⟨hshown, hpath, -⟩ := hs.shown parent rfl
    cases hnodoc : p.nodoc with
    | true => exact ⟨fun _ _ hnot => absurd hnot.symm Bool.false_ne_true, fun _ => ⟨.hidden, rfl⟩⟩
    | false =>
      have hplace : ns.place (p :: above) = member parent.path p.name := by rw [hpath]; rfl
      simp only [Bool.false_eq_true, if_false, exists_bind_eq_ok_iff, hshown, true_implies, hplace]
      constructor
      · rintro ⟨answer, ha, -⟩
        exact ⟨answer, ha⟩
      · rintro ⟨answer, ha⟩
        cases answer <;> exact ⟨_, ha, _, rfl⟩

/-- **Annotating succeeds** if every question it asks is answered: one for each property that is not
hidden and around which all is shown. -/
theorem Governs.exists_annotate_iff {t : ApiType} (hs : Governs r ns above s) :
    (∃ t', annotate r s t = .ok t') ↔
      ∀ l ∈ lineages above t, ns.Shown r l.above → l.property.nodoc = false →
        ∃ answer, r.query (ns.place l.chain) = .ok answer := by
  induction t using nesting_induction generalizing above s with
  | step t hparts hnested =>
    rw [exists_annotate_iff_nested, lineages_eq, List.forall_mem_append, List.forall_mem_flatMap,
      List.forall_mem_flatMap]
    refine and_congr (forall₂_congr fun a ha => hparts a ha hs) (forall₂_congr fun p hp => ?_)
    rw [lineagesOfProperty_eq, List.forall_mem_cons]
    simp only [annotateProperty_eq_ok_iff]
    constructor
    · rintro ⟨p', v, type, hv, htype, rfl⟩
      exact ⟨hs.exists_verdict_iff.1 ⟨v, hv⟩, (hnested p hp (hs.below hv)).1 ⟨type, htype⟩⟩
    · rintro ⟨hasked, hbelow⟩
      obtain ⟨v, hv⟩ := hs.exists_verdict_iff.2 hasked
      obtain ⟨type, htype⟩ := (hnested p hp (hs.below hv)).2 hbelow
      exact ⟨_, v, type, hv, htype, rfl⟩

end ApiType

/-! ### Namespaces -/

namespace Namespace

variable {ns n : Namespace} {r : Resolver} {answer : Option Availability}

/-- The namespace without what annotating sets. -/
def unmarked (ns : Namespace) : Namespace :=
  { ns with
    members := ApiType.mapTraitsOfProperties Traits.unmarked ns.members
    nodoc := false
    feature := {}
    availability := none }

/-- The surroundings that a namespace hands on agree with it. -/
theorem governs_surroundings (h : r.query ns.name = .ok answer) :
    ApiType.Governs r ns [] (ns.surroundings answer) := by
  unfold surroundings
  cases hnodoc : ns.nodoc with
  | true => exact ⟨fun _ => .inl hnodoc, fun _ hparent => by cases hparent⟩
  | false =>
    cases answer with
    | none => exact ⟨fun _ => .inr h, fun _ hparent => by cases hparent⟩
    | some a =>
      refine ⟨fun hnone => absurd hnone (Option.some_ne_none _), fun parent hparent => ?_⟩
      cases hparent
      exact ⟨⟨hnodoc, a, h⟩, rfl, h, rfl⟩

/-- What a namespace becomes with these surroundings for its members, and with these members. -/
def withMembers (ns : Namespace) (members : List (Property ApiType)) :
    Option Surroundings → Namespace
  | none => { ns with members, nodoc := true }
  | some s =>
    { ns with members, feature := s.availability.diff none, availability := some s.availability }

/-- A namespace is annotated by annotating its members in its surroundings. -/
theorem annotate_eq_bind (ns : Namespace) (r : Resolver) :
    ns.annotate r = do
      let answer ← r.query ns.name
      let members ← ApiType.annotateProperties r (ns.surroundings answer) ns.members
      return ns.withMembers members (ns.surroundings answer) := by
  refine bind_congr fun answer => ?_
  obtain ⟨name, members, description, deprecated, nodoc, feature, availability⟩ := ns
  cases nodoc <;> cases answer <;> rfl

theorem annotate_eq_ok_iff :
    ns.annotate r = .ok n ↔ ∃ answer members, r.query ns.name = .ok answer ∧
      ApiType.annotateProperties r (ns.surroundings answer) ns.members = .ok members ∧
        n = ns.withMembers members (ns.surroundings answer) := by
  rw [annotate_eq_bind, bind_eq_ok_iff]
  refine exists_congr fun answer => ?_
  simp only [bind_eq_ok_iff, exists_and_left]
  refine and_congr_right fun _ => exists_congr fun members => and_congr_right fun _ => ?_
  exact ⟨fun h => by cases h; rfl, fun h => h ▸ rfl⟩

theorem members_withMembers (members : List (Property ApiType)) (s : Option Surroundings) :
    (ns.withMembers members s).members = members := by
  cases s <;> rfl

theorem name_withMembers (members : List (Property ApiType)) (s : Option Surroundings) :
    (ns.withMembers members s).name = ns.name := by
  cases s <;> rfl

/-- Annotating a namespace annotates its members like those of an object. -/
theorem annotate_body {members : List (Property ApiType)} {s : Option Surroundings}
    (h : ApiType.annotateProperties r s ns.members = .ok members) :
    ApiType.annotate r s ns.body = .ok (ns.withMembers members s).body := by
  refine bind_eq_ok_iff.2 ⟨members, h, ?_⟩
  rw [body, members_withMembers]
  rfl

/-- **Marks.** Every property is marked as its own lineage says. -/
theorem forall₂_marked (h : ns.annotate r = .ok n) :
    List.Forall₂ (ns.Marked r n) ns.lineages n.lineages := by
  obtain ⟨answer, members, ha, hm, rfl⟩ := annotate_eq_ok_iff.1 h
  set n := ns.withMembers members (ns.surroundings answer) with hn
  -- The surroundings agree with the lineage before, and with the availability that was set around.
  refine ApiType.forall₂_lineages (fun s above above' => ApiType.Governs r ns above s ∧
    ∀ parent, s = some parent → n.availabilityAround above' = some parent.availability)
    ?_ ⟨governs_surroundings ha, ?_⟩ (annotate_body hm)
  · rintro s above above' p v type ⟨hs, haround⟩ hv
    refine ⟨⟨hs.below hv, ?_⟩, hs.nodoc_traits_iff hv, fun hnodoc => ?_⟩
    · intro parent hparent
      cases v with
      | hidden => cases hparent
      | shown path a outer =>
        cases hparent
        rfl
    · rcases Verdict.of_cases hv with ⟨rfl, -⟩ | ⟨parent, a, rfl, -, hquery, rfl⟩
      · cases hnodoc
      · obtain ⟨-, hpath, -, hdeprecated⟩ := hs.shown parent rfl
        rw [hpath] at hquery
        exact ⟨a, parent.availability, hquery, rfl, haround parent rfl, rfl,
          congrArg (p.deprecated <|> ·) hdeprecated⟩
  · intro parent hparent
    rw [hn, hparent]
    rfl

/-- **Frame.** But for marks a namespace stays as it is. -/
theorem unmarked_eq (h : ns.annotate r = .ok n) : n.unmarked = ns.unmarked := by
  obtain ⟨answer, members, -, hm, rfl⟩ := annotate_eq_ok_iff.1 h
  have hmembers := ApiType.mapTraitsOfProperties_annotate Verdict.unmarked_traits hm
  unfold unmarked
  rw [members_withMembers, hmembers]
  cases ns.surroundings answer <;> rfl

/-- **Success.** Every question that is asked has to be answered. -/
theorem exists_annotate_iff :
    (∃ n, ns.annotate r = .ok n) ↔ (∃ answer, r.query ns.name = .ok answer) ∧
      ∀ l ∈ ns.lineages, ns.Shown r l.above → l.property.nodoc = false →
        ∃ answer, r.query (ns.place l.chain) = .ok answer := by
  have hbody {answer : Option Availability} (ha : r.query ns.name = .ok answer) :
      (∃ members, ApiType.annotateProperties r (ns.surroundings answer) ns.members = .ok members) ↔
        ∀ l ∈ ns.lineages, ns.Shown r l.above → l.property.nodoc = false →
          ∃ answer, r.query (ns.place l.chain) = .ok answer := by
    refine Iff.trans ?_ (governs_surroundings ha).exists_annotate_iff
    simp only [body, ApiType.annotate, exists_bind_eq_ok_iff, exists_pure_eq_ok_iff, and_true]
  constructor
  · rintro ⟨n, h⟩
    obtain ⟨answer, members, ha, hm, -⟩ := annotate_eq_ok_iff.1 h
    exact ⟨⟨answer, ha⟩, (hbody ha).1 ⟨members, hm⟩⟩
  · rintro ⟨⟨answer, ha⟩, hall⟩
    obtain ⟨members, hm⟩ := (hbody ha).2 hall
    exact ⟨_, annotate_eq_ok_iff.2 ⟨answer, members, ha, hm, rfl⟩⟩

theorem Shown.namespace {chain : List (Property ApiType)} (h : ns.Shown r chain) :
    ns.Shown r [] := by
  induction chain with
  | nil => exact h
  | cons p above ih => exact ih h.2

/-- **What annotating a namespace does.** If it succeeds, only marks change: hidden becomes what was
hidden or not available and all that is nested in it, the namespace included, and everything else is
annotated with its own availability, with what is new in it against what it is nested in, and with
the nearest deprecation. It fails if and only if the question for the namespace has no answer, or,
in a namespace that is shown, the question for a property that was not hidden and around which all
is shown. -/
theorem annotate_exact (ns : Namespace) (r : Resolver) :
    (∀ n, ns.annotate r = .ok n →
      n.unmarked = ns.unmarked ∧
      (n.nodoc = true ↔ ns.Hidden r []) ∧
      (n.nodoc = false → ∃ a, r.query ns.name = .ok (some a) ∧ n.availability = some a ∧
        n.feature = a.diff none) ∧
      List.Forall₂ (ns.Marked r n) ns.lineages n.lineages) ∧
    ((∃ e, ns.annotate r = .error e) ↔
      (∃ e, r.query ns.name = .error e) ∨
        (ns.Shown r [] ∧ ∃ l ∈ ns.lineages, ns.Shown r l.above ∧ l.property.nodoc = false ∧
          ∃ e, r.query (ns.place l.chain) = .error e)) := by
  constructor
  · intro n h
    have hmarked := forall₂_marked h
    have hunmarked := unmarked_eq h
    obtain ⟨answer, members, ha, -, rfl⟩ := annotate_eq_ok_iff.1 h
    have hs := governs_surroundings ha
    refine ⟨hunmarked, ?_, ?_, hmarked⟩
    · cases hsur : ns.surroundings answer with
      | none => exact ⟨fun _ => hs.hidden hsur, fun _ => rfl⟩
      | some parent =>
        obtain ⟨hshown, -⟩ := hs.shown parent hsur
        refine ⟨fun hnodoc => ?_, fun hhidden => absurd hhidden hshown.not_hidden⟩
        exact absurd (hshown.1.symm.trans hnodoc) Bool.false_ne_true
    · intro hnodoc
      cases hsur : ns.surroundings answer with
      | none =>
        rw [hsur] at hnodoc
        cases hnodoc
      | some parent => exact ⟨parent.availability, (hs.shown parent hsur).2.2.1, rfl, rfl⟩
  · rw [exists_error_iff, exists_annotate_iff, not_and_or, ← exists_error_iff]
    refine or_congr_right ?_
    simp only [not_forall, ← exists_error_iff, exists_prop]
    constructor
    · rintro ⟨l, hl, habove, hrest⟩
      exact ⟨habove.namespace, l, hl, habove, hrest⟩
    · rintro ⟨-, hrest⟩
      exact hrest

end Namespace
end ApiTypings
