import ApiTypings.Proofs.PrintedTypes
/-!
# Template parameters out of scope

An error that tells of a template parameter tells of one that would be written at the path that is
told, and that is not in scope (`ApiType.Blames`). This is the other direction of
`ApiType.Printed.mem_scope`: a type is never refused for a template parameter that `ApiType.Printed`
does not know of.

`ApiType.BodyFails` says of everything that a type is made of how declaring it can fail, as
`ApiType.BodyLowers` says that it does not. Main statement: `ApiType.blaming`.
-/

namespace ApiTypings

/-- The place and the name of the template parameter that an error is about. -/
def DeclarationError.template? : DeclarationError → Option (String × String)
  | templateReference path name => some (path, name)
  | _ => none

/-! ### Functions -/

namespace Callable

variable {τ : Type} {void : τ} {promise : τ → τ} {path : String} {c : Callable τ}

theorem template?_of_family (kind : SignatureKind) (ps : List (Property τ)) (returns : Property τ) :
    FailsWith (family kind path ps returns) fun e => e.template? = none := by
  refine FailsWith.map ?_ _
  unfold Property.boundedOmissions
  split
  · exact failsWith_error rfl
  · exact failsWith_ok _

theorem template?_of_promiseResult (results : List (Property τ)) :
    FailsWith (promiseResult void promise path results) fun e => e.template? = none := by
  unfold promiseResult
  split
  · exact failsWith_ok _
  · exact failsWith_ok _
  · exact failsWith_error rfl

theorem template?_of_signatures :
    FailsWith (c.signatures void promise path) fun e => e.template? = none := by
  unfold signatures
  split
  · exact template?_of_family _ _ _
  · next completion _ =>
    split
    · exact failsWith_error rfl
    · next results _ =>
      have hcallbacks : ∀ promises : List (Signature τ), FailsWith (do
          let callbacks ← family .callback path (c.parameters ++ [completion.callback.required])
            (Property.result void)
          return promises ++ callbacks) fun e => e.template? = none :=
        fun promises => (template?_of_family _ _ _).bind fun _ _ => failsWith_ok _
      dsimp only
      split
      · exact hcallbacks []
      · refine (template?_of_promiseResult results).bind fun returns _ => ?_
        exact (template?_of_family _ _ returns).bind fun promises _ => hcallbacks promises

/-- Expanding a function does not look at its types. -/
theorem template?_of_expand :
    FailsWith (c.expand void promise path) fun e => e.template? = none := by
  unfold expand
  refine template?_of_signatures.bind fun all _ => ?_
  cases all with
  | nil => exact failsWith_error rfl
  | cons s rest =>
    simp only [List.isEmpty_cons, Bool.false_eq_true, if_false]
    split
    · exact failsWith_error rfl
    · exact failsWith_ok _

end Callable

/-! ### What a type is made of -/

namespace ApiType

variable {E : DeclarationError → Prop} {scope : List String} {path : String} {t : ApiType}

/-- Whatever of a type cannot be declared, `E` holds of the error. -/
structure BodyFails (E : DeclarationError → Prop) (scope : List String) (path : String)
    (t : ApiType) : Prop where
  parts : ∀ a ∈ t.parts, FailsWith (a.lower scope path) E
  properties : ∀ p ∈ Property.visible t.objectProperties, FailsWith (lowerMember scope path p) E
  index : ∀ i ∈ t.index?, FailsWith (i.lower scope path) E
  signatures : ∀ c ∈ t.lowerCallable? scope path, FailsWith (c.loweredSignatures path) E
  callable : ∀ c ∈ t.lowerCallable? scope path, c.Writes (Deferred.Fails E)

theorem BodyFails.imp {E' : DeclarationError → Prop} (h : t.BodyFails E scope path)
    (hE : ∀ e, E e → E' e) : t.BodyFails E' scope path where
  parts a ha := (h.parts a ha).imp hE
  properties p hp := (h.properties p hp).imp hE
  index i hi := (h.index i hi).imp hE
  signatures c hc := (h.signatures c hc).imp hE
  callable c hc := (h.callable c hc).imp fun _ hd => FailsWith.imp hd hE

theorem BodyFails.lowerMembers {properties : List (Property ApiType)}
    (h : ∀ p ∈ Property.visible properties, FailsWith (lowerMember scope path p) E) :
    FailsWith (lowerMembers scope path properties) E := by
  rw [lowerMembers_eq_mapM]
  exact (FailsWith.mapM h).map _

theorem BodyFails.lowerIndex {further : Option ApiType}
    (h : ∀ i ∈ further, FailsWith (i.lower scope path) E) :
    FailsWith (lowerIndex scope path further) E := by
  cases further with
  | none => exact failsWith_ok _
  | some i => exact (h i rfl).bind fun _ _ => failsWith_ok _

theorem BodyFails.lowerObject {properties : List (Property ApiType)} {further : Option ApiType}
    {templates instanceType : Option String}
    (h : (object properties further templates instanceType).BodyFails E scope path) :
    FailsWith (lowerObject scope path properties further) E :=
  (lowerMembers h.properties).bind fun _ _ => (lowerIndex h.index).bind fun _ _ => failsWith_ok _

theorem BodyFails.lowerItems {ts : List ApiType} (h : ∀ t ∈ ts, FailsWith (t.lower scope path) E) :
    FailsWith (lowerItems scope path ts) E := by
  rw [lowerItems_eq_mapM]
  exact FailsWith.mapM h

/-- A type that nothing takes the place of is refused for what it is made of, or if it is a template
parameter itself. -/
theorem BodyFails.lower (h : t.BodyFails E scope path) (hfind : Replacement.find? path t = none)
    (hself : ∀ target arguments, t = .reference target arguments → target.generic = true →
      target.name ∉ scope → E (.templateReference path target.name)) :
    FailsWith (t.lower scope path) E := by
  cases t with
  | primitive | literal | number =>
    rw [ApiType.lower, lowerUnlessParameter_of_find?_eq_none hfind]
    exact failsWith_ok _
  | reference target arguments =>
    have hfinal : FailsWith (finalTarget scope path target none) E := by
      unfold finalTarget finalTarget.check
      split_ifs with hfails
      · simp only [Bool.and_eq_true, Bool.not_eq_true', List.contains_eq_mem,
          decide_eq_false_iff_not] at hfails
        exact failsWith_error (hself target arguments rfl hfails.1 hfails.2)
      · exact failsWith_ok _
    rw [lower_reference_of_find?_eq_none scope hfind]
    exact hfinal.bind fun _ _ => (lowerItems h.parts).bind fun _ _ => failsWith_ok _
  | sequence element min max =>
    rw [ApiType.lower, lowerUnlessParameter_of_find?_eq_none hfind]
    exact (h.parts element (List.mem_singleton_self _)).map _
  | object properties further templates instanceType =>
    rw [ApiType.lower, lowerUnlessParameter_of_find?_eq_none hfind]
    exact (lowerMembers h.properties).bind fun _ _ => (lowerIndex h.index).bind fun _ _ =>
      failsWith_ok _
  | intersection items | choices items =>
    rw [ApiType.lower, lowerUnlessParameter_of_find?_eq_none hfind]
    exact (lowerItems h.parts).map _
  | function parameters returns completion callbackOnly =>
    rw [ApiType.lower, lowerUnlessParameter_of_find?_eq_none hfind]
    exact failsWith_functionType (h.signatures _ rfl) (h.callable _ rfl)

/-! ### What takes the place of a type -/

/-- What is declared for a type: the type itself, a template parameter, or the reference that the type
is, applied to `any` or by another name. -/
theorem printed_cases (path : String) (t : ApiType) :
    t.printed path = t ∨ (∃ name, t.printed path = .templateParameter name) ∨
      ∃ target arguments, t = .reference target arguments ∧
        ((∃ applied, t.printed path = .reference applied [.any]) ∨
          ∃ renamed, t.printed path = .reference renamed arguments) := by
  unfold printed
  cases h : typeOverride? path t with
  | none => exact .inl rfl
  | some u =>
    obtain ⟨r, hr, rfl⟩ := exists_find?_of_typeOverride? h
    cases Replacement.does_of_find? hr with
    | parameter hslot hcovers => exact .inr (.inl ⟨_, rfl⟩)
    | applyToAny hslots hbare => exact .inr (.inr ⟨_, _, rfl, .inl ⟨_, rfl⟩⟩)
    | rename hslots hold hnew => exact .inr (.inr ⟨_, _, rfl, .inr ⟨_, rfl⟩⟩)

/-! ### Template parameters that are written -/

/-- If the error is about a template parameter, this is not in scope and would be written for the type
at the path that the error tells. -/
def Blames (scope : List String) (mode : PrintMode) (path : String) (t : ApiType)
    (e : DeclarationError) : Prop :=
  ∀ place name, e.template? = some (place, name) → name ∉ scope ∧
    ∃ target arguments, target.generic = true ∧ target.name = name ∧
      Printed place (.reference target arguments) mode path t

theorem Blames.imp {mode mode' : PrintMode} {path' : String} {t' : ApiType} {e : DeclarationError}
    (he : Blames scope mode path t e)
    (h : ∀ place u, Printed place u mode path t → Printed place u mode' path' t') :
    Blames scope mode' path' t' e := by
  intro place name htemplate
  obtain ⟨hname, target, arguments, hgeneric, hsame, hprinted⟩ := he place name htemplate
  exact ⟨hname, target, arguments, hgeneric, hsame, h _ _ hprinted⟩

theorem blames_of_template?_eq_none {mode : PrintMode} {e : DeclarationError}
    (h : e.template? = none) : Blames scope mode path t e := by
  intro place name htemplate
  rw [h] at htemplate
  cases htemplate

/-- Errors about template parameters are as told by `Blames`, in each of the roles in which a type is
met: as a type, by what it is made of, and as a completion callback whose parameters become results of
promises. -/
structure Blaming (scope : List String) (t : ApiType) : Prop where
  type : ∀ path, FailsWith (t.lower scope path) (Blames scope .whole path t)
  body : ∀ path, t.BodyFails (Blames scope .body path t) scope path
  results : ∀ results, t.visibleParameters? = some results → ∀ p ∈ results, ∀ path,
    FailsWith (p.type.lower scope path) (Blames scope .whole path p.type)

/-- A member of an object is refused as the type that it has. -/
theorem failsWith_lowerMember {p : Property ApiType} (hp : p.type.Blaming scope) :
    FailsWith (lowerMember scope path p)
      (Blames scope p.memberMode (member path p.name) p.type) := by
  rcases lowerMember_cases scope path p with ⟨hmode, hlower⟩ | ⟨hmode, -, c, hc, hlower⟩
  · rw [hmode, hlower]
    exact (hp.type _).map _
  · rw [hmode, hlower]
    have hbody := hp.body (member path p.name)
    exact failsWith_lowerMethod (hbody.signatures c hc) (hbody.callable c hc) _ _

/-- The types that are written for a function are those of the properties nested in it, and of its
callback. -/
theorem writes_of_lowerCallable? (hnested : ∀ p ∈ t.nested, p.type.Blaming scope)
    {c : Callable Deferred} (hc : t.lowerCallable? scope path = some c) :
    c.Writes (Deferred.Fails (Blames scope .body path t)) := by
  cases t with
  | function parameters returns completion callbackOnly =>
    cases hc
    simp only [nested, List.forall_mem_append, Option.mem_toList] at hnested
    obtain ⟨⟨hparameters, hreturns⟩, hcompletion⟩ := hnested
    rw [lowerVisible_eq_map, lowerResult_eq_map, lowerCompletion_eq_map]
    constructor
    case parameters =>
      refine List.forall_mem_map.2 fun p hp => ?_
      exact ((hparameters p (Property.mem_of_mem_visible hp)).type _).imp fun _ he =>
        he.imp fun _ _ h => .parameter hp h
    case returns =>
      intro hnone p hp
      obtain rfl : completion = none := Option.map_eq_none_iff.1 hnone
      obtain ⟨q, hq, rfl⟩ := Option.map_eq_some_iff.1 hp
      obtain rfl : returns = some q := hq
      exact ((hreturns q rfl).type _).imp fun _ he => he.imp fun _ _ h => .result h
    case callback =>
      intro k hk
      obtain ⟨q, hq, rfl⟩ := Option.map_eq_some_iff.1 hk
      obtain rfl : completion = some q := hq
      exact ((hcompletion q rfl).type _).imp fun _ he => he.imp fun _ _ h => .callback h
    case results =>
      intro k hk hpromised ps hps
      obtain ⟨q, hq, rfl⟩ := Option.map_eq_some_iff.1 hk
      obtain rfl : completion = some q := hq
      obtain rfl : callbackOnly = false := hpromised
      rw [lowerResults_eq_map] at hps
      obtain ⟨results, hresults, rfl⟩ := Option.map_eq_some_iff.1 hps
      refine List.forall_mem_map.2 fun p hp => ?_
      exact ((hcompletion q rfl).results results hresults p hp _).imp fun _ he =>
        he.imp fun _ _ h => .promise hresults hp h
  | _ => cases hc

theorem bodyFails_of_pieces (hparts : ∀ a ∈ t.parts, a.Blaming scope)
    (hnested : ∀ p ∈ t.nested, p.type.Blaming scope) (hindex : ∀ i ∈ t.index?, i.Blaming scope)
    (path : String) : t.BodyFails (Blames scope .body path t) scope path where
  parts a ha := ((hparts a ha).type path).imp fun _ he => he.imp fun _ _ h => .part ha h
  properties p hp := by
    have hmem : p ∈ t.nested := by
      cases t with
      | object => exact Property.mem_of_mem_visible hp
      | _ => cases hp
    exact (failsWith_lowerMember (hnested p hmem)).imp fun _ he => he.imp fun _ _ h => .property hp h
  index i hi := ((hindex i hi).type path).imp fun _ he => he.imp fun _ _ h => .index hi h
  signatures _ _ := Callable.template?_of_expand.imp fun _ he => blames_of_template?_eq_none he
  callable _ hc := writes_of_lowerCallable? hnested hc

theorem bodyFails_reference (target : Reference) {arguments : List ApiType}
    (h : ∀ a ∈ arguments, a.Blaming scope) (path : String) :
    (reference target arguments).BodyFails (Blames scope .body path (reference target arguments))
      scope path :=
  @bodyFails_of_pieces scope (reference target arguments) h (List.forall_mem_nil _) forall_mem_none
    path

theorem failsWith_lower_of_printed
    (h : (t.printed path).BodyFails (Blames scope .body path (t.printed path)) scope path) :
    FailsWith (t.lower scope path) (Blames scope .whole path t) := by
  rw [← lower_printed]
  refine BodyFails.lower (h.imp fun _ he => he.imp fun _ _ => .made)
    (Option.map_eq_none_iff.1 typeOverride?_printed) fun target arguments hprinted hgeneric hname => ?_
  rintro place name ⟨⟩
  exact ⟨hname, target, arguments, hgeneric, rfl, .self hprinted.symm⟩

theorem blaming_of_pieces
    (hany : ∀ target arguments, t = .reference target arguments → any.Blaming scope)
    (hparts : ∀ a ∈ t.parts, a.Blaming scope) (hnested : ∀ p ∈ t.nested, p.type.Blaming scope)
    (hindex : ∀ i ∈ t.index?, i.Blaming scope) : t.Blaming scope where
  type path := by
    refine failsWith_lower_of_printed ?_
    rcases printed_cases path t with
      h | ⟨name, h⟩ | ⟨target, arguments, rfl, ⟨applied, h⟩ | ⟨renamed, h⟩⟩ <;> rw [h]
    · exact bodyFails_of_pieces hparts hnested hindex path
    · exact bodyFails_reference _ (List.forall_mem_nil _) path
    · exact bodyFails_reference applied (List.forall_mem_singleton.2 (hany target arguments rfl)) path
    · exact bodyFails_reference renamed hparts path
  body := bodyFails_of_pieces hparts hnested hindex
  results results hresults p hp path := by
    cases t with
    | function parameters returns completion callbackOnly =>
      cases hresults
      have hmem : p ∈ parameters ++ returns.toList ++ completion.toList :=
        List.mem_append_left _ (List.mem_append_left _ (Property.mem_of_mem_visible hp))
      exact (hnested p hmem).type path
    | _ => cases hresults

/-- **Errors about template parameters are about those that are written.** -/
theorem blaming (scope : List String) (t : ApiType) : t.Blaming scope := by
  have hany : any.Blaming scope :=
    blaming_of_pieces (by rintro _ _ ⟨⟩) (List.forall_mem_nil _) (List.forall_mem_nil _)
      forall_mem_none
  induction t using structure_induction with
  | step t hparts hnested hindex =>
    exact blaming_of_pieces (fun _ _ _ => hany) hparts hnested hindex

end ApiType

end ApiTypings
