import ApiTypings.Proofs.Announcements
import ApiTypings.Proofs.Replacements
/-!
# What is declared of a type

Declaring a type comes to types that are nested in it, each at a path, and writes what is declared for
it there (`ApiType.printed`). `ApiType.Printed` says which types are written and where, without
computing anything.

A type is not always declared as an expression. The members of an object stand in the body of an
interface, and the parameters and the result of a function in its overloads: then nothing is written
for the type itself, but only for what it is made of (`PrintMode`).

Main statement: if a type can be declared with some template parameters in scope, then every template
parameter that is written for it is one of them (`ApiType.Printed.mem_scope`).
-/

namespace ApiTypings

/-! ### Positions -/

/-- What is declared of a type: the type as an expression, or only what it is made of. -/
inductive PrintMode
  | whole
  | body
  deriving DecidableEq, Repr

/-- What is declared of the type of a member of an object. A method is declared by its overloads. -/
def Property.memberMode (p : Property ApiType) : PrintMode :=
  if p.mayBeMethod && p.type.isFunction then .body else .whole

namespace ApiType

/-- For a type at `path` the type `u` is written at `place`. -/
inductive Printed (place : String) (u : ApiType) : PrintMode → String → ApiType → Prop
  | self {t : ApiType} (hu : u = t.printed place) : Printed place u .whole place t
  /-- What is declared for the type decides what it is made of. -/
  | made {path : String} {t : ApiType} (h : Printed place u .body path (t.printed path)) :
      Printed place u .whole path t
  /-- Arguments, elements and items are written at the path of the type that they are parts of. -/
  | part {path : String} {t a : ApiType} (ha : a ∈ t.parts) (h : Printed place u .whole path a) :
      Printed place u .body path t
  | property {path : String} {t : ApiType} {p : Property ApiType}
      (hp : p ∈ Property.visible t.objectProperties)
      (h : Printed place u p.memberMode (member path p.name) p.type) : Printed place u .body path t
  | index {path : String} {t i : ApiType} (hi : i ∈ t.index?) (h : Printed place u .whole path i) :
      Printed place u .body path t
  | parameter {path : String} {ps : List (Property ApiType)}
      {returns completion : Option (Property ApiType)} {callbackOnly : Bool} {p : Property ApiType}
      (hp : p ∈ Property.visible ps) (h : Printed place u .whole (member path p.name) p.type) :
      Printed place u .body path (.function ps returns completion callbackOnly)
  /-- Only a synchronous function has the result that it is given. -/
  | result {path : String} {ps : List (Property ApiType)} {p : Property ApiType}
      {callbackOnly : Bool} (h : Printed place u .whole (member path p.name) p.type) :
      Printed place u .body path (.function ps (some p) none callbackOnly)
  | callback {path : String} {ps : List (Property ApiType)} {returns : Option (Property ApiType)}
      {k : Property ApiType} {callbackOnly : Bool}
      (h : Printed place u .whole (member path k.name) k.type) :
      Printed place u .body path (.function ps returns (some k) callbackOnly)
  /-- What a callback is given is promised, at the path of the result. -/
  | promise {path : String} {ps : List (Property ApiType)} {returns : Option (Property ApiType)}
      {k p : Property ApiType} {results : List (Property ApiType)}
      (hresults : k.type.visibleParameters? = some results) (hp : p ∈ results)
      (h : Printed place u .whole (member path Property.returnName) p.type) :
      Printed place u .body path (.function ps returns (some k) false)

end ApiType

/-! ### Functions -/

/-- The deferred type can be computed. -/
def Deferred.Computed (d : Deferred) : Prop :=
  ∃ e, d.get = .ok e

theorem Deferred.computed_of_promise {d : Deferred} (h : d.promise.Computed) : d.Computed := by
  obtain ⟨e, he⟩ := h
  obtain ⟨result, hresult, -⟩ := map_eq_ok_iff.1 he
  exact ⟨result, hresult⟩

/-- The whole parameter list is among those that result from leaving parameters out, though some of
its parameters are required there. -/
theorem Property.exists_types_eq_of_omissions {τ : Type} (ps : List (Property τ)) :
    ∃ kept ∈ omissions ps, kept.map (·.type) = ps.map (·.type) := by
  induction ps with
  | nil => exact ⟨[], List.mem_singleton_self [], rfl⟩
  | cons p rest ih =>
    obtain ⟨kept, hkept, htypes⟩ := ih
    rw [omissions]
    split
    · refine ⟨p.required :: kept, List.mem_flatMap.2 ⟨kept, hkept, List.mem_cons_self ..⟩, ?_⟩
      rw [List.map_cons, List.map_cons, htypes, required]
    · refine ⟨p :: kept, List.mem_map_of_mem hkept, ?_⟩
      rw [List.map_cons, List.map_cons, htypes]

theorem computed_of_toParameter {p : Property Deferred} {q : Parameter TypeExpr}
    (h : p.toParameter = .ok q) : p.type.Computed :=
  ⟨q.type, (toParameter_eq_ok h).2⟩

namespace Callable

variable {c : Callable Deferred} {path : String}

/-- All types can be computed that are written for a function. -/
abbrev Computed (c : Callable Deferred) : Prop :=
  c.Writes Deferred.Computed

/-- Every parameter is one of some overload of a family, and the result is that of each. -/
theorem computed_of_overloads {kind : SignatureKind} {ps : List (Property Deferred)}
    {returns : Property Deferred} (h : ∀ s ∈ overloads kind ps returns, ∃ l, s.lowered = .ok l) :
    (∀ p ∈ ps, p.type.Computed) ∧ returns.type.Computed := by
  obtain ⟨kept, hkept, htypes⟩ := Property.exists_types_eq_of_omissions ps
  obtain ⟨l, hl⟩ := h ⟨kind, kept, returns⟩ (List.mem_map_of_mem hkept)
  obtain ⟨parameters, hparameters, hl⟩ := bind_eq_ok_iff.1 hl
  obtain ⟨result, hresult, -⟩ := bind_eq_ok_iff.1 hl
  refine ⟨fun p hp => ?_, result, hresult⟩
  have htype : p.type ∈ kept.map (·.type) := htypes ▸ List.mem_map_of_mem hp
  obtain ⟨q, hq, hqp⟩ := List.mem_map.1 htype
  obtain ⟨parameter, hparameter⟩ := exists_mapM_eq_ok_iff.1 ⟨parameters, hparameters⟩ q hq
  rw [← hqp]
  exact computed_of_toParameter hparameter

theorem computed_of_sync (hcompletion : c.completion = none)
    (hparameters : ∀ p ∈ c.parameters, p.type.Computed) (hreturns : ∀ p ∈ c.returns, p.type.Computed) :
    c.Computed where
  parameters := hparameters
  returns _ := hreturns
  callback := by
    rw [hcompletion]
    exact forall_mem_none
  results := by
    rw [hcompletion]
    exact forall_mem_none

/-- The callback of an asynchronous function stands after its parameters. -/
theorem computed_of_async {k : Completion Deferred} (hcompletion : c.completion = some k)
    (hparameters : ∀ p ∈ c.parameters ++ [k.callback.required], p.type.Computed)
    (hresults : k.callbackOnly = false → ∀ ps ∈ k.results, ∀ p ∈ ps, p.type.Computed) :
    c.Computed where
  parameters p hp := hparameters p (List.mem_append_left _ hp)
  returns hnone := by
    rw [hnone] at hcompletion
    cases hcompletion
  callback k' hk' := by
    obtain rfl := Option.mem_unique hcompletion hk'
    exact hparameters k.callback.required (List.mem_append_right _ (List.mem_singleton_self _))
  results k' hk' := by
    obtain rfl := Option.mem_unique hcompletion hk'
    exact hresults

/-- There is one result at most if it is promised. -/
theorem computed_of_promiseResult {results : List (Property Deferred)} {returns : Property Deferred}
    (h : promiseResult (.pure (.ok TypeExpr.void)) Deferred.promise path results = .ok returns)
    (hreturns : returns.type.Computed) : ∀ p ∈ results, p.type.Computed := by
  cases results with
  | nil => exact List.forall_mem_nil _
  | cons only rest =>
    cases rest with
    | nil =>
      cases h
      intro p hp
      obtain rfl := List.mem_singleton.1 hp
      exact Deferred.computed_of_promise hreturns
    | cons _ _ => cases h

/-- If every overload is written, all types of the function are. -/
theorem computed_of_lowered {signatures : List (Signature Deferred)}
    (h : c.loweredSignatures path = .ok signatures)
    (hs : ∀ s ∈ signatures, ∃ l, s.lowered = .ok l) : c.Computed := by
  cases expanded_of_expand h with
  | sync hcompletion =>
    obtain ⟨hparameters, hreturns⟩ := computed_of_overloads hs
    refine computed_of_sync hcompletion hparameters fun p hp => ?_
    rwa [Option.mem_def.1 hp] at hreturns
  | callbackOnly hcompletion hresults honly =>
    refine computed_of_async hcompletion (computed_of_overloads hs).1 fun hfalse => ?_
    rw [honly] at hfalse
    cases hfalse
  | both hcompletion hresults honly hreturns =>
    obtain ⟨hpromises, hcallbacks⟩ := List.forall_mem_append.1 hs
    refine computed_of_async hcompletion (computed_of_overloads hcallbacks).1 fun _ ps hps => ?_
    obtain rfl := Option.mem_unique hresults hps
    exact computed_of_promiseResult hreturns (computed_of_overloads hpromises).2

theorem computed_of_arrowParameters {ps : List (Property Deferred)} {qs : List (Parameter TypeExpr)}
    (h : arrowParameters ps = .ok qs) : ∀ p ∈ ps, p.type.Computed := by
  induction ps generalizing qs with
  | nil => exact List.forall_mem_nil _
  | cons p rest ih =>
    obtain ⟨q, hq, h⟩ := bind_eq_ok_iff.1 h
    obtain ⟨qs', hqs', -⟩ := bind_eq_ok_iff.1 h
    exact List.forall_mem_cons.2 ⟨computed_of_toParameter hq, ih hqs'⟩

/-- **A function that is declared** has all its types computed, as a type... -/
theorem computed_of_functionType {e : TypeExpr} (h : c.functionType path = .ok e) : c.Computed := by
  unfold Callable.functionType at h
  split at h
  next =>
    obtain ⟨signatures, hsignatures, h⟩ := bind_eq_ok_iff.1 h
    obtain ⟨members, hmembers, -⟩ := bind_eq_ok_iff.1 h
    refine computed_of_lowered hsignatures fun s hs => ?_
    obtain ⟨m, hm⟩ := exists_mapM_eq_ok_iff.1 ⟨members, hmembers⟩ s hs
    obtain ⟨l, hl, -⟩ := bind_eq_ok_iff.1 hm
    exact ⟨l, hl⟩
  next hcompletion =>
    obtain ⟨parameters, hparameters, h⟩ := bind_eq_ok_iff.1 h
    refine computed_of_sync hcompletion (computed_of_arrowParameters hparameters) fun p hp => ?_
    rw [Option.mem_def.1 hp] at h
    obtain ⟨returns, hreturns, -⟩ := bind_eq_ok_iff.1 h
    exact ⟨returns, hreturns⟩

/-- ...and as a method. -/
theorem computed_of_lowerMethod {name : String} {doc : Doc} {members : List (ObjectMember TypeExpr)}
    (h : lowerMethod c name path doc = .ok members) : c.Computed := by
  obtain ⟨signatures, hsignatures, h⟩ := bind_eq_ok_iff.1 h
  refine computed_of_lowered hsignatures fun s hs => ?_
  obtain ⟨m, hm⟩ := exists_mapM_eq_ok_iff.1 ⟨members, h⟩ s hs
  obtain ⟨l, hl, -⟩ := bind_eq_ok_iff.1 hm
  exact ⟨l, hl⟩

end Callable

/-! ### Types -/

namespace ApiType

variable {scope : List String} {path : String} {t : ApiType}

/-- All that a type is made of can be declared. -/
structure BodyLowers (scope : List String) (path : String) (t : ApiType) : Prop where
  parts : ∀ a ∈ t.parts, ∃ e, a.lower scope path = .ok e
  properties : ∀ p ∈ Property.visible t.objectProperties, ∃ ms, lowerMember scope path p = .ok ms
  index : ∀ i ∈ t.index?, ∃ e, i.lower scope path = .ok e
  callable : ∀ c ∈ t.lowerCallable? scope path, c.Computed

/-- A type can be declared, with these template parameters in scope. -/
def Declarable (scope : List String) (path : String) : PrintMode → ApiType → Prop
  | .whole, t => ∃ e, t.lower scope path = .ok e
  | .body, t => t.BodyLowers scope path

/-- A type that has nothing in it but parts. -/
theorem bodyLowers_of_parts (hproperties : t.objectProperties = []) (hindex : t.index? = none)
    (hcallable : t.lowerCallable? scope path = none)
    (h : ∀ a ∈ t.parts, ∃ e, a.lower scope path = .ok e) : t.BodyLowers scope path where
  parts := h
  properties := by
    rw [hproperties]
    exact List.forall_mem_nil _
  index := by
    rw [hindex]
    exact forall_mem_none
  callable := by
    rw [hcallable]
    exact forall_mem_none

/-- The body of an object type is that of an interface. -/
theorem bodyLowers_of_lowerObject {properties : List (Property ApiType)} {further : Option ApiType}
    {templates instanceType : Option String} {members : List (ObjectMember TypeExpr)}
    (h : lowerObject scope path properties further = .ok members) :
    (object properties further templates instanceType).BodyLowers scope path := by
  obtain ⟨own, hown, h⟩ := bind_eq_ok_iff.1 h
  obtain ⟨indexMembers, hindex, -⟩ := bind_eq_ok_iff.1 h
  rw [lowerMembers_eq_mapM] at hown
  obtain ⟨lists, hlists, -⟩ := map_eq_ok_iff.1 hown
  refine ⟨List.forall_mem_nil _, exists_mapM_eq_ok_iff.1 ⟨lists, hlists⟩, fun i hi => ?_,
    forall_mem_none⟩
  obtain rfl : further = some i := hi
  obtain ⟨e, he, -⟩ := bind_eq_ok_iff.1 hindex
  exact ⟨e, he⟩

theorem isSome_lowerCallable? (scope : List String) (path : String) (t : ApiType) :
    (t.lowerCallable? scope path).isSome = t.isFunction := by
  cases t <;> rfl

/-- The body of a function type is that of its overloads. -/
theorem bodyLowers_of_computed (hfunction : t.isFunction = true)
    (h : ∀ c ∈ t.lowerCallable? scope path, c.Computed) : t.BodyLowers scope path := by
  cases t with
  | function => exact ⟨List.forall_mem_nil _, List.forall_mem_nil _, forall_mem_none, h⟩
  | _ => cases hfunction

theorem forall_of_lowerItems {ts : List ApiType} {es : List TypeExpr}
    (h : lowerItems scope path ts = .ok es) : ∀ t ∈ ts, ∃ e, t.lower scope path = .ok e := by
  rw [lowerItems_eq_mapM] at h
  exact exists_mapM_eq_ok_iff.1 ⟨es, h⟩

theorem lowerUnlessParameter_of_find?_eq_none (h : Replacement.find? path t = none)
    (otherwise : Lowered) : lowerUnlessParameter scope path t otherwise = otherwise := by
  unfold lowerUnlessParameter
  rw [h]

/-- **A type that nothing takes the place of** is declared by what it is made of. -/
theorem bodyLowers_of_lower (hfind : Replacement.find? path t = none) {e : TypeExpr}
    (h : t.lower scope path = .ok e) : t.BodyLowers scope path := by
  cases t with
  | primitive | literal | number => exact bodyLowers_of_parts rfl rfl rfl (List.forall_mem_nil _)
  | reference target arguments =>
    rw [lower_reference_of_find?_eq_none scope hfind] at h
    obtain ⟨final, -, h⟩ := bind_eq_ok_iff.1 h
    obtain ⟨items, hitems, -⟩ := bind_eq_ok_iff.1 h
    exact bodyLowers_of_parts rfl rfl rfl (forall_of_lowerItems hitems)
  | sequence element min max =>
    rw [lower, lowerUnlessParameter_of_find?_eq_none hfind] at h
    obtain ⟨element', helement, -⟩ := map_eq_ok_iff.1 h
    exact bodyLowers_of_parts rfl rfl rfl (List.forall_mem_singleton.2 ⟨element', helement⟩)
  | object properties further templates instanceType =>
    rw [lower, lowerUnlessParameter_of_find?_eq_none hfind] at h
    obtain ⟨own, hown, h⟩ := bind_eq_ok_iff.1 h
    obtain ⟨indexMembers, hindex, -⟩ := bind_eq_ok_iff.1 h
    have hmembers : lowerObject scope path properties further = .ok (own ++ indexMembers) := by
      rw [lowerObject, hown, hindex]
      rfl
    exact bodyLowers_of_lowerObject hmembers
  | intersection items | choices items =>
    rw [lower, lowerUnlessParameter_of_find?_eq_none hfind] at h
    obtain ⟨items', hitems, -⟩ := map_eq_ok_iff.1 h
    exact bodyLowers_of_parts rfl rfl rfl (forall_of_lowerItems hitems)
  | function parameters returns completion callbackOnly =>
    rw [lower, lowerUnlessParameter_of_find?_eq_none hfind] at h
    refine bodyLowers_of_computed rfl fun c hc => ?_
    cases hc
    exact Callable.computed_of_functionType h

theorem declarable_printed (h : t.Declarable scope path .whole) :
    (t.printed path).Declarable scope path .body := by
  obtain ⟨e, he⟩ := h
  rw [← lower_printed] at he
  exact bodyLowers_of_lower (Option.map_eq_none_iff.1 typeOverride?_printed) he

/-- A member of an object is a method with its overloads, or has its type written. -/
theorem lowerMember_cases (scope : List String) (path : String) (p : Property ApiType) :
    (p.memberMode = .whole ∧ lowerMember scope path p =
        (p.type.lower scope (member path p.name)).map fun t =>
          [.property (p.toTraits.doc p.type (member path p.name)) (memberKey p.name) p.optional t]) ∨
      (p.memberMode = .body ∧ p.type.isFunction = true ∧
        ∃ c, p.type.lowerCallable? scope (member path p.name) = some c ∧ lowerMember scope path p =
          lowerMethod c p.name (member path p.name) (p.toTraits.doc p.type (member path p.name))) := by
  unfold Property.memberMode lowerMember
  dsimp only
  rw [← isSome_lowerCallable? scope (member path p.name)]
  cases p.mayBeMethod with
  | false => exact .inl ⟨rfl, rfl⟩
  | true =>
    cases p.type.lowerCallable? scope (member path p.name) with
    | none => exact .inl ⟨rfl, rfl⟩
    | some c => exact .inr ⟨rfl, rfl, c, rfl, rfl⟩

theorem declarable_of_lowerMember {p : Property ApiType} {ms : List (ObjectMember TypeExpr)}
    (h : lowerMember scope path p = .ok ms) :
    p.type.Declarable scope (member path p.name) p.memberMode := by
  rcases lowerMember_cases scope path p with ⟨hmode, hlower⟩ | ⟨hmode, hfunction, c, hc, hlower⟩
  · rw [hmode]
    obtain ⟨e, he, -⟩ := map_eq_ok_iff.1 (hlower.symm.trans h)
    exact ⟨e, he⟩
  · rw [hmode]
    refine bodyLowers_of_computed hfunction fun c' hc' => ?_
    obtain rfl := Option.mem_unique hc hc'
    exact Callable.computed_of_lowerMethod (hlower.symm.trans h)

/-- The parameters of a callback are its results. -/
theorem lowerResults_eq_map (scope : List String) (path : String) (t : ApiType) :
    t.lowerResults scope path = t.visibleParameters?.map fun results =>
      results.map (Property.deferred scope (member path Property.returnName)) := by
  cases t with
  | function => exact congrArg some (lowerPromised_eq_map _)
  | _ => rfl

/-- A template parameter that is written is in scope. -/
theorem name_mem_of_lower {target : Reference} {arguments : List ApiType}
    (hprinted : t.printed path = .reference target arguments) (hgeneric : target.generic = true)
    {e : TypeExpr} (h : t.lower scope path = .ok e) : target.name ∈ scope := by
  have hfind : Replacement.find? path (t.printed path) = none :=
    Option.map_eq_none_iff.1 typeOverride?_printed
  rw [← lower_printed, hprinted] at h
  rw [hprinted] at hfind
  rw [lower_reference_of_find?_eq_none scope hfind] at h
  obtain ⟨final, hfinal, -⟩ := bind_eq_ok_iff.1 h
  by_contra hnot
  have hfails : finalTarget scope path target none = .error (.templateReference path target.name) := by
    simp [finalTarget, finalTarget.check, hgeneric, hnot]
  rw [hfails] at hfinal
  cases hfinal

/-- **Template parameters are written only where they are in scope.** -/
theorem Printed.mem_scope {place : String} {target : Reference} {arguments : List ApiType}
    {mode : PrintMode} (h : Printed place (.reference target arguments) mode path t)
    (hgeneric : target.generic = true) (hdeclarable : t.Declarable scope path mode) :
    target.name ∈ scope := by
  induction h with
  | self hu =>
    obtain ⟨e, he⟩ := hdeclarable
    exact name_mem_of_lower hu.symm hgeneric he
  | made _ ih => exact ih (declarable_printed hdeclarable)
  | part ha _ ih => exact ih (hdeclarable.parts _ ha)
  | property hp _ ih =>
    obtain ⟨ms, hms⟩ := hdeclarable.properties _ hp
    exact ih (declarable_of_lowerMember hms)
  | index hi _ ih => exact ih (hdeclarable.index _ hi)
  | parameter hp _ ih =>
    have hcomputed := (hdeclarable.callable _ rfl).parameters
    rw [lowerVisible_eq_map] at hcomputed
    exact ih (hcomputed _ (List.mem_map_of_mem hp))
  | result _ ih => exact ih ((hdeclarable.callable _ rfl).returns rfl _ rfl)
  | callback _ ih => exact ih ((hdeclarable.callable _ rfl).callback _ rfl)
  | @promise path _ _ k p results hresults hp _ ih =>
    have hlowered : k.type.lowerResults scope path =
        some (results.map (Property.deferred scope (member path Property.returnName))) := by
      rw [lowerResults_eq_map, hresults]
      rfl
    exact ih ((hdeclarable.callable _ rfl).results _ rfl rfl _ hlowered _ (List.mem_map_of_mem hp))

end ApiType

end ApiTypings
