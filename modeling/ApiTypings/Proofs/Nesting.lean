import ApiTypings.Schema.Annotation
import ApiTypings.Proofs.Except
/-!
# What a type is made of

Annotating and dropping both walk through a type constructor by constructor. What they do to a type
can be said of four things that any type has: its nameless parts (`ApiType.parts`), the properties
that go when they are hidden (`ApiType.declared`), the results, which stay (`ApiType.results`), and
the type of further members (`ApiType.index?`). For each of the two walks there is one lemma for
each of the four. `ApiType.Annotated` says once what annotating does to each constructor, and no
other proof opens the walk.
-/

namespace ApiTypings

/-! ### Lists side by side -/

variable {α β : Type} {R : α → β → Prop} {xs : List α} {ys : List β}

theorem exists_right_of_mem (h : List.Forall₂ R xs ys) {x : α} (hx : x ∈ xs) : ∃ y ∈ ys, R x y := by
  induction h with
  | nil => cases hx
  | cons hxy _ ih =>
    rcases List.mem_cons.1 hx with rfl | hx
    · exact ⟨_, List.mem_cons_self .., hxy⟩
    · obtain ⟨y, hy, hR⟩ := ih hx
      exact ⟨y, List.mem_cons_of_mem _ hy, hR⟩

theorem exists_left_of_mem (h : List.Forall₂ R xs ys) {y : β} (hy : y ∈ ys) : ∃ x ∈ xs, R x y :=
  exists_right_of_mem h.flip hy

section

variable {γ δ : Type} {S : γ → δ → Prop}

theorem forall₂_flatMap {f : α → List γ} {g : β → List δ} (h : List.Forall₂ R xs ys)
    (hfg : ∀ x ∈ xs, ∀ y, R x y → List.Forall₂ S (f x) (g y)) :
    List.Forall₂ S (xs.flatMap f) (ys.flatMap g) := by
  induction h with
  | nil => exact .nil
  | cons hxy _ ih =>
    rw [List.flatMap_cons, List.flatMap_cons]
    exact List.rel_append (hfg _ (List.mem_cons_self ..) _ hxy)
      (ih fun x hx => hfg x (List.mem_cons_of_mem _ hx))

theorem forall₂_comp {T : α → γ → Prop} {S : β → γ → Prop} {zs : List γ}
    (hxy : List.Forall₂ R xs ys) (hyz : List.Forall₂ S ys zs)
    (h : ∀ x y z, R x y → S y z → T x z) : List.Forall₂ T xs zs := by
  induction hxy generalizing zs with
  | nil =>
    cases hyz
    exact .nil
  | cons hR _ ih =>
    cases hyz with
    | cons hS hrest => exact .cons (h _ _ _ hR hS) (ih hrest)

/-- What two walks make of a list that they both go through, side by side. -/
theorem forall₂_of_both {S : α → γ → Prop} {T : β → γ → Prop} {zs : List γ}
    (hxy : List.Forall₂ R xs ys) (hxz : List.Forall₂ S xs zs)
    (h : ∀ x ∈ xs, ∀ y z, R x y → S x z → T y z) : List.Forall₂ T ys zs := by
  induction hxy generalizing zs with
  | nil =>
    cases hxz
    exact .nil
  | cons hR _ ih =>
    cases hxz with
    | cons hS hrest =>
      exact .cons (h _ (List.mem_cons_self ..) _ _ hR hS)
        (ih hrest fun x hx => h x (List.mem_cons_of_mem _ hx))

theorem exists_forall₂_iff : (∃ ys, List.Forall₂ R xs ys) ↔ ∀ x ∈ xs, ∃ y, R x y := by
  constructor
  · rintro ⟨ys, h⟩ x hx
    obtain ⟨y, -, hy⟩ := exists_right_of_mem h hx
    exact ⟨y, hy⟩
  · intro h
    induction xs with
    | nil => exact ⟨[], .nil⟩
    | cons x xs ih =>
      obtain ⟨⟨y, hy⟩, hrest⟩ := List.forall_mem_cons.1 h
      obtain ⟨ys, hys⟩ := ih hrest
      exact ⟨y :: ys, .cons hy hys⟩

theorem forall₂_filter {p : α → Bool} {q : β → Bool} (h : List.Forall₂ R xs ys)
    (hpq : ∀ x y, R x y → q y = p x) : List.Forall₂ R (xs.filter p) (ys.filter q) :=
  List.rel_filter (fun x y hxy => Bool.eq_iff_iff.1 (hpq x y hxy).symm) h

theorem map_eq_of_forall₂ {f : α → γ} {g : β → γ} (h : List.Forall₂ R xs ys)
    (hfg : ∀ x ∈ xs, ∀ y, R x y → g y = f x) : ys.map g = xs.map f := by
  induction h with
  | nil => rfl
  | cons hxy _ ih =>
    rw [List.map_cons, List.map_cons, hfg _ (List.mem_cons_self ..) _ hxy,
      ih fun x hx => hfg x (List.mem_cons_of_mem _ hx)]

theorem flatMap_eq_of_forall₂ {f : α → List γ} {g : β → List γ} (h : List.Forall₂ R xs ys)
    (hfg : ∀ x ∈ xs, ∀ y, R x y → g y = f x) : ys.flatMap g = xs.flatMap f := by
  rw [List.flatMap_def, List.flatMap_def, map_eq_of_forall₂ h hfg]

end

namespace ApiType

/-! ### Parts, properties, results and further members -/

/-- The types that a type is made of without giving them a name. -/
def parts : ApiType → List ApiType
  | .reference _ arguments => arguments
  | .sequence element _ _ => [element]
  | .intersection items => items
  | .choices items => items
  | _ => []

/-- The properties of a type that go when they are hidden: the members of an object, and the
parameters and the completion callback of a function. -/
def declared : ApiType → List (Property ApiType)
  | .object properties _ _ _ => properties
  | .function parameters _ completion _ => parameters ++ completion.toList
  | _ => []

/-- The result of a function, which stays when it is hidden. -/
def results : ApiType → List (Property ApiType)
  | .function _ returns _ _ => returns.toList
  | _ => []

/-- The type of the further members of an object. -/
def index? : ApiType → Option ApiType
  | .object _ index _ _ => index
  | _ => none

/-! ### Dropping what is hidden -/

@[simp]
theorem toTraits_visibleInside (p : Property ApiType) : (visibleInside p).toTraits = p.toTraits := by
  cases p
  rfl

@[simp]
theorem name_visibleInside (p : Property ApiType) : (visibleInside p).name = p.name := by
  cases p
  rfl

@[simp]
theorem type_visibleInside (p : Property ApiType) : (visibleInside p).type = p.type.visible := by
  cases p
  rfl

theorem visibleItems_eq_map (ts : List ApiType) : visibleItems ts = ts.map visible := by
  induction ts with
  | nil => rfl
  | cons t ts ih => rw [visibleItems, ih, List.map_cons]

theorem visibleProperties_eq_map (ps : List (Property ApiType)) :
    visibleProperties ps = (Property.visible ps).map visibleInside := by
  induction ps with
  | nil => rfl
  | cons p ps ih =>
    rw [visibleProperties, ih, Property.visible, Property.visible, List.filter_cons]
    cases p.nodoc <;> rfl

theorem toList_visibleResult (p : Option (Property ApiType)) :
    (visibleResult p).toList = p.toList.map visibleInside := by
  cases p <;> rfl

theorem toList_visibleCallback (p : Option (Property ApiType)) :
    (visibleCallback p).toList = (Property.visible p.toList).map visibleInside := by
  cases p with
  | none => rfl
  | some p =>
    rw [visibleCallback, Property.visible, Option.toList_some, List.filter_cons]
    cases p.nodoc <;> rfl

theorem parts_visible (t : ApiType) : t.visible.parts = t.parts.map visible := by
  cases t with
  | reference target arguments => exact visibleItems_eq_map arguments
  | intersection items => exact visibleItems_eq_map items
  | choices items => exact visibleItems_eq_map items
  | _ => rfl

theorem declared_visible (t : ApiType) :
    t.visible.declared = (Property.visible t.declared).map visibleInside := by
  cases t with
  | object properties index templates instanceType => exact visibleProperties_eq_map properties
  | function parameters returns completion callbackOnly =>
    show visibleProperties parameters ++ (visibleCallback completion).toList = _
    rw [visibleProperties_eq_map, toList_visibleCallback, ← List.map_append, Property.visible,
      Property.visible, ← List.filter_append]
    rfl
  | _ => rfl

theorem visibleInside_mem_declared {t : ApiType} {p : Property ApiType} (hp : p ∈ t.declared)
    (hnodoc : p.nodoc = false) : visibleInside p ∈ t.visible.declared := by
  rw [declared_visible]
  exact List.mem_map_of_mem (List.mem_filter.2 ⟨hp, by rw [hnodoc]; rfl⟩)

theorem results_visible (t : ApiType) : t.visible.results = t.results.map visibleInside := by
  cases t with
  | function parameters returns completion callbackOnly => exact toList_visibleResult returns
  | _ => rfl

/-- Dropping does not enter further members. -/
theorem index?_visible (t : ApiType) : t.visible.index? = t.index? := by
  cases t <;> rfl

/-! ### Annotating -/

variable {r : Resolver} {s : Option Surroundings}

theorem annotateItems_eq_mapM (ts : List ApiType) :
    annotateItems r s ts = ts.mapM (annotate r s) := by
  induction ts with
  | nil => rfl
  | cons t ts ih => rw [annotateItems, ih, List.mapM_cons]

theorem annotateProperties_eq_mapM (ps : List (Property ApiType)) :
    annotateProperties r s ps = ps.mapM (annotateProperty r s) := by
  induction ps with
  | nil => rfl
  | cons p ps ih => rw [annotateProperties, ih, List.mapM_cons]

theorem annotateItems_eq_ok_iff {ts ts' : List ApiType} :
    annotateItems r s ts = .ok ts' ↔ List.Forall₂ (fun t t' => annotate r s t = .ok t') ts ts' := by
  rw [annotateItems_eq_mapM, mapM_eq_ok_iff]

theorem annotateProperties_eq_ok_iff {ps ps' : List (Property ApiType)} :
    annotateProperties r s ps = .ok ps' ↔
      List.Forall₂ (fun p p' => annotateProperty r s p = .ok p') ps ps' := by
  rw [annotateProperties_eq_mapM, mapM_eq_ok_iff]

theorem forall₂_of_annotateOption {p p' : Option (Property ApiType)}
    (h : annotateOption r s p = .ok p') :
    List.Forall₂ (fun p p' => annotateProperty r s p = .ok p') p.toList p'.toList := by
  cases p with
  | none =>
    cases h
    exact .nil
  | some p =>
    obtain ⟨p', hp, h⟩ := bind_eq_ok_iff.1 h
    cases h
    exact .cons hp .nil

theorem annotateOption_of_forall₂ {p p' : Option (Property ApiType)}
    (h : List.Forall₂ (fun p p' => annotateProperty r s p = .ok p') p.toList p'.toList) :
    annotateOption r s p = .ok p' := by
  cases p with
  | none =>
    cases p' with
    | none => rfl
    | some p' => cases h
  | some p =>
    cases p' with
    | none => cases h
    | some p' =>
      obtain ⟨hp, -⟩ := List.forall₂_cons.1 h
      exact bind_eq_ok_iff.2 ⟨p', hp, rfl⟩

/-- What annotating in the surroundings `s` makes of a type, constructor by constructor. -/
inductive Annotated (r : Resolver) (s : Option Surroundings) : ApiType → ApiType → Prop
  | primitive {word : Primitive} : Annotated r s (.primitive word) (.primitive word)
  | literal {value : Literal} : Annotated r s (.literal value) (.literal value)
  | number {integer : Bool} {minimum maximum : Option Double} :
      Annotated r s (.number integer minimum maximum) (.number integer minimum maximum)
  | reference {target : Reference} {arguments arguments' : List ApiType}
      (ha : List.Forall₂ (fun a a' => annotate r s a = .ok a') arguments arguments') :
      Annotated r s (.reference target arguments) (.reference target arguments')
  | sequence {element element' : ApiType} {min : Nat} {max : Option Nat}
      (he : annotate r s element = .ok element') :
      Annotated r s (.sequence element min max) (.sequence element' min max)
  | object {properties properties' : List (Property ApiType)} {index : Option ApiType}
      {templates instanceType : Option String}
      (hp : List.Forall₂ (fun p p' => annotateProperty r s p = .ok p') properties properties') :
      Annotated r s (.object properties index templates instanceType)
        (.object properties' index templates instanceType)
  | intersection {items items' : List ApiType}
      (hi : List.Forall₂ (fun a a' => annotate r s a = .ok a') items items') :
      Annotated r s (.intersection items) (.intersection items')
  | choices {items items' : List ApiType}
      (hi : List.Forall₂ (fun a a' => annotate r s a = .ok a') items items') :
      Annotated r s (.choices items) (.choices items')
  | function {parameters parameters' : List (Property ApiType)}
      {returns returns' completion completion' : Option (Property ApiType)} {callbackOnly : Bool}
      (hp : List.Forall₂ (fun p p' => annotateProperty r s p = .ok p') parameters parameters')
      (hr : annotateOption r s returns = .ok returns')
      (hc : annotateOption r s completion = .ok completion') :
      Annotated r s (.function parameters returns completion callbackOnly)
        (.function parameters' returns' completion' callbackOnly)

/-- Annotating is one of these things. -/
theorem annotated_of_annotate {t t' : ApiType} (h : annotate r s t = .ok t') :
    Annotated r s t t' := by
  cases t with
  | primitive word =>
    cases h
    exact .primitive
  | literal value =>
    cases h
    exact .literal
  | number integer minimum maximum =>
    cases h
    exact .number
  | reference target arguments =>
    obtain ⟨arguments', ha, h⟩ := bind_eq_ok_iff.1 h
    cases h
    exact .reference (annotateItems_eq_ok_iff.1 ha)
  | sequence element min max =>
    obtain ⟨element', he, h⟩ := bind_eq_ok_iff.1 h
    cases h
    exact .sequence he
  | object properties index templates instanceType =>
    obtain ⟨properties', hp, h⟩ := bind_eq_ok_iff.1 h
    cases h
    exact .object (annotateProperties_eq_ok_iff.1 hp)
  | intersection items =>
    obtain ⟨items', hi, h⟩ := bind_eq_ok_iff.1 h
    cases h
    exact .intersection (annotateItems_eq_ok_iff.1 hi)
  | choices items =>
    obtain ⟨items', hi, h⟩ := bind_eq_ok_iff.1 h
    cases h
    exact .choices (annotateItems_eq_ok_iff.1 hi)
  | function parameters returns completion callbackOnly =>
    obtain ⟨parameters', hp, h⟩ := bind_eq_ok_iff.1 h
    obtain ⟨returns', hr, h⟩ := bind_eq_ok_iff.1 h
    obtain ⟨completion', hc, h⟩ := bind_eq_ok_iff.1 h
    cases h
    exact .function (annotateProperties_eq_ok_iff.1 hp) hr hc

/-- Annotating is any of these things. -/
theorem annotate_of_annotated {t t' : ApiType} (h : Annotated r s t t') :
    annotate r s t = .ok t' := by
  cases h with
  | primitive | literal | number => rfl
  | reference ha => exact bind_eq_ok_iff.2 ⟨_, annotateItems_eq_ok_iff.2 ha, rfl⟩
  | sequence he => exact bind_eq_ok_iff.2 ⟨_, he, rfl⟩
  | object hp => exact bind_eq_ok_iff.2 ⟨_, annotateProperties_eq_ok_iff.2 hp, rfl⟩
  | intersection hi | choices hi =>
    exact bind_eq_ok_iff.2 ⟨_, annotateItems_eq_ok_iff.2 hi, rfl⟩
  | function hp hr hc =>
    refine bind_eq_ok_iff.2 ⟨_, annotateProperties_eq_ok_iff.2 hp, ?_⟩
    exact bind_eq_ok_iff.2 ⟨_, hr, bind_eq_ok_iff.2 ⟨_, hc, rfl⟩⟩

/-- The parts of an annotated type are the annotated parts. -/
theorem parts_annotate {t t' : ApiType} (h : annotate r s t = .ok t') :
    List.Forall₂ (fun a a' => annotate r s a = .ok a') t.parts t'.parts := by
  cases annotated_of_annotate h with
  | reference ha => exact ha
  | sequence he => exact .cons he .nil
  | intersection hi | choices hi => exact hi
  | primitive | literal | number | object | function => exact .nil

/-- The properties of an annotated type are the annotated properties. -/
theorem declared_annotate {t t' : ApiType} (h : annotate r s t = .ok t') :
    List.Forall₂ (fun p p' => annotateProperty r s p = .ok p') t.declared t'.declared := by
  cases annotated_of_annotate h with
  | object hp => exact hp
  | function hp _ hc =>
    -- The result is annotated between the two, but belongs to neither.
    exact List.rel_append hp (forall₂_of_annotateOption hc)
  | primitive | literal | number | reference | sequence | intersection | choices => exact .nil

/-- The result of an annotated type is the annotated result. -/
theorem results_annotate {t t' : ApiType} (h : annotate r s t = .ok t') :
    List.Forall₂ (fun p p' => annotateProperty r s p = .ok p') t.results t'.results := by
  cases annotated_of_annotate h with
  | function _ hr _ => exact forall₂_of_annotateOption hr
  | primitive | literal | number | reference | sequence | object | intersection | choices =>
    exact .nil

/-- Annotating does not enter further members. -/
theorem index?_annotate {t t' : ApiType} (h : annotate r s t = .ok t') : t'.index? = t.index? := by
  cases annotated_of_annotate h <;> rfl

/-- A property is annotated with its verdict, and what is below it with what the verdict leaves. -/
theorem annotateProperty_eq_ok_iff {p p' : Property ApiType} :
    annotateProperty r s p = .ok p' ↔
      ∃ v type, Verdict.of r s p.toTraits p.name = .ok v ∧
        annotate r (v.below p.toTraits) p.type = .ok type ∧
          p' = ⟨v.traits p.toTraits, p.name, type⟩ := by
  obtain ⟨old, name, type⟩ := p
  rw [annotateProperty, bind_eq_ok_iff]
  refine exists_congr fun v => ?_
  rw [bind_eq_ok_iff]
  constructor
  · rintro ⟨hv, type', ht, h⟩
    cases h
    exact ⟨type', hv, ht, rfl⟩
  · rintro ⟨type', hv, ht, rfl⟩
    exact ⟨hv, type', ht, rfl⟩

end ApiType

/-! ### Verdicts -/

/-- A property is shown if it has surroundings, is not hidden itself, and is available. -/
theorem Verdict.of_cases {r : Resolver} {s : Option Surroundings} {old : Traits} {name : String}
    {v : Verdict} (h : Verdict.of r s old name = .ok v) :
    (v = .hidden ∧ ∀ parent, s = some parent → old.nodoc = false →
      r.query (member parent.path name) = .ok none) ∨
    ∃ parent a, s = some parent ∧ old.nodoc = false ∧
      r.query (member parent.path name) = .ok (some a) ∧
      v = .shown (member parent.path name) a parent := by
  unfold Verdict.of at h
  cases s with
  | none =>
    cases h
    exact .inl ⟨rfl, fun _ hnone => by cases hnone⟩
  | some parent =>
    simp only at h
    split_ifs at h with hnodoc
    · cases h
      exact .inl ⟨rfl, fun _ _ hshown => by rw [hnodoc] at hshown; cases hshown⟩
    · obtain ⟨answer, ha, h⟩ := bind_eq_ok_iff.1 h
      cases answer with
      | none =>
        cases h
        refine .inl ⟨rfl, fun parent' hparent _ => ?_⟩
        cases hparent
        exact ha
      | some a =>
        cases h
        exact .inr ⟨parent, a, rfl, by simpa using hnodoc, ha, rfl⟩

/-! ### Namespaces -/

namespace Namespace

/-- The members of a namespace as those of an object. -/
def body (ns : Namespace) : ApiType :=
  .object ns.members none none none

theorem name_visible (ns : Namespace) : ns.visible.name = ns.name := by
  unfold visible
  split <;> rfl

/-- What the members of a namespace take from it, when it has this availability. -/
def surroundings (ns : Namespace) (answer : Option Availability) : Option Surroundings :=
  if ns.nodoc then none else answer.map fun a => ⟨ns.name, a, ns.deprecated⟩

variable {ns n : Namespace} {r : Resolver}

/-- A namespace is annotated as an object would be. -/
theorem body_annotate (h : ns.annotate r = .ok n) :
    ∃ answer, r.query ns.name = .ok answer ∧
      ApiType.annotate r (ns.surroundings answer) ns.body = .ok n.body ∧
      n.nodoc = (ns.surroundings answer).isNone ∧ n.name = ns.name := by
  obtain ⟨answer, ha, h⟩ := bind_eq_ok_iff.1 h
  refine ⟨answer, ha, ?_⟩
  unfold surroundings
  -- Hidden or not, and available or not, the members are annotated in the same way.
  cases hnodoc : ns.nodoc <;> rw [hnodoc] at h <;> cases answer
  all_goals
    obtain ⟨members, hm, h⟩ := bind_eq_ok_iff.1 h
    cases h
    exact ⟨bind_eq_ok_iff.2 ⟨members, hm, rfl⟩, by simp, rfl⟩

end Namespace

end ApiTypings
