import ApiTypings.Proofs.Declared
import ApiTypings.Proofs.SchemaTypes
/-!
# How declaring can fail

Of the errors that a declaration can fail with, three tell of a model that makes no sense: a result
with a name of its own, a function without overloads, and a completion callback that is no function.
Of regular types none of these comes up. What is left (`DeclarationError.Foreseen`) are numbers of
parameters that cannot be declared, and template parameters that are put in the place of a type
where they are not in scope (`ApiType.Regular.failsForeseen`).

So a compiler fails to declare what it parsed for these reasons only, and the places at which a
template parameter can be out of scope are those of a short list
(`Compiler.compileTexts_error_declaration`).
-/

namespace ApiTypings

/-- The error says that there are too many parameters, or that a template parameter that was put in
the place of a type is not in scope. -/
inductive DeclarationError.Foreseen : DeclarationError → Prop
  | asyncArity (path : String) (count : Nat) : Foreseen (.asyncArity path count)
  | tooManyOptional (path : String) (count : Nat) : Foreseen (.tooManyOptional path count)
  | templateReference {path : String} {slot : GenericSlot} (hslot : slot ∈ genericSlots)
      (hcovers : slot.covers path = true) : Foreseen (.templateReference path slot.parameter)

open DeclarationError (Foreseen)

/-! ### Expanding functions -/

namespace Callable

variable {τ : Type} {void : τ} {promise : τ → τ} {path : String} {c : Callable τ}

/-- A result is named as one, and a completion callback is a function. -/
structure Regular (c : Callable τ) : Prop where
  returns : ∀ p ∈ c.returns, p.name = Property.returnName
  results : ∀ completion ∈ c.completion, completion.results.isSome = true

theorem failsWith_family (kind : SignatureKind) (ps : List (Property τ)) (returns : Property τ) :
    FailsWith (family kind path ps returns) Foreseen := by
  refine FailsWith.map ?_ _
  unfold Property.boundedOmissions
  split
  · exact failsWith_error (.tooManyOptional _ _)
  · exact failsWith_ok _

theorem failsWith_promiseResult (results : List (Property τ)) :
    FailsWith (promiseResult void promise path results) Foreseen := by
  unfold promiseResult
  split
  · exact failsWith_ok _
  · exact failsWith_ok _
  · exact failsWith_error (.asyncArity _ _)

theorem failsWith_signatures (hc : c.Regular) :
    FailsWith (c.signatures void promise path) Foreseen := by
  unfold signatures
  split
  · exact failsWith_family _ _ _
  · next completion hcompletion =>
    split
    · next hnone =>
      have hsome := hc.results completion hcompletion
      rw [hnone] at hsome
      cases hsome
    · next results _ =>
      have hcallbacks : ∀ promises : List (Signature τ), FailsWith (do
          let callbacks ← family .callback path (c.parameters ++ [completion.callback.required])
            (Property.result void)
          return promises ++ callbacks) Foreseen :=
        fun promises => (failsWith_family _ _ _).bind fun _ _ => failsWith_ok _
      dsimp only
      split
      · exact hcallbacks []
      · refine (failsWith_promiseResult results).bind fun returns _ => ?_
        exact (failsWith_family _ _ returns).bind fun promises _ => hcallbacks promises

theorem returns_of_mem_overloads {kind : SignatureKind} {ps : List (Property τ)}
    {returns : Property τ} {s : Signature τ} (hs : s ∈ overloads kind ps returns) :
    s.returns = returns := by
  obtain ⟨kept, -, rfl⟩ := List.mem_map.1 hs
  rfl

theorem name_of_promiseResult {results : List (Property τ)} {returns : Property τ}
    (h : promiseResult void promise path results = .ok returns) :
    returns.name = Property.returnName := by
  unfold promiseResult at h
  split at h <;> cases h <;> rfl

/-- The results of overloads are named as results. -/
theorem Expanded.returns_name (hc : c.Regular) {signatures : List (Signature τ)}
    (h : Expanded void promise path c signatures) :
    ∀ s ∈ signatures, s.returns.name = Property.returnName := by
  intro s hs
  cases h with
  | sync _ =>
    rw [returns_of_mem_overloads hs]
    cases hreturns : c.returns with
    | none => rfl
    | some p => exact hc.returns p hreturns
  | callbackOnly _ _ _ =>
    rw [returns_of_mem_overloads hs]
    rfl
  | both _ _ _ hpromise =>
    rcases List.mem_append.1 hs with hs | hs
    · rw [returns_of_mem_overloads hs]
      exact name_of_promiseResult hpromise
    · rw [returns_of_mem_overloads hs]
      rfl

/-- **Expanding a function** fails only if there are too many parameters. -/
theorem failsWith_expand (hc : c.Regular) : FailsWith (c.expand void promise path) Foreseen := by
  unfold expand
  refine (failsWith_signatures hc).bind fun all hall => ?_
  have hexpanded := expanded_of_signatures hall
  -- The two checks that follow never stop an expansion that came this far.
  have hempty : ¬all.isEmpty = true := by
    rw [List.isEmpty_iff]
    exact hexpanded.ne_nil
  have hfind : all.find? (·.returns.name ≠ Property.returnName) = none := by
    rw [List.find?_eq_none]
    intro s hs
    simp [hexpanded.returns_name hc s hs]
  simp only [hempty, hfind]
  exact failsWith_ok all

end Callable

/-! ### Template parameters -/

theorem GenericSlot.covers_of_applies {slot : GenericSlot} {path : String} {t : ApiType}
    (h : slot.applies path t = true) : slot.covers path = true := by
  simp only [GenericSlot.applies, Bool.and_eq_true] at h
  exact h.1.1

/-- A template parameter takes the place of a type at one of the positions for it only. -/
theorem Replacement.exists_slot_of_find? {path name : String} {t : ApiType}
    (h : Replacement.find? path t = some (.parameter name)) :
    ∃ slot ∈ genericSlots, slot.covers path = true ∧ slot.parameter = name := by
  unfold Replacement.find? at h
  split at h
  · next slot hslot =>
    cases h
    have happlies : slot.applies path t = true := by simpa using List.find?_some hslot
    exact ⟨slot, List.mem_of_find?_eq_some hslot, GenericSlot.covers_of_applies happlies, rfl⟩
  · split at h
    · unfold Replacement.ofReference? at h
      split at h
      · cases h
      · split at h
        · cases h
        · -- A host type is renamed or left alone.
          split at h
          · obtain ⟨_, -, h⟩ := Option.map_eq_some_iff.1 h
            cases h
          · cases h
    · cases h

section

variable {scope : List String} {path : String} {t : ApiType}

theorem failsWith_lowerTemplate {name : String}
    (h : Replacement.find? path t = some (.parameter name)) :
    FailsWith (lowerTemplate scope path name) Foreseen := by
  unfold lowerTemplate
  split
  · exact failsWith_ok _
  · obtain ⟨slot, hslot, hcovers, rfl⟩ := Replacement.exists_slot_of_find? h
    exact failsWith_error (.templateReference hslot hcovers)

theorem failsWith_lowerAny : FailsWith (lowerAny scope path) Foreseen := by
  unfold lowerAny
  split
  · next h => exact failsWith_lowerTemplate h
  · exact failsWith_ok _

theorem failsWith_unlessParameter {otherwise : Lowered} (h : FailsWith otherwise Foreseen) :
    FailsWith (lowerUnlessParameter scope path t otherwise) Foreseen := by
  unfold lowerUnlessParameter
  split
  · next hfind => exact failsWith_lowerTemplate hfind
  · exact h

/-- A reference that is no template parameter has a final target. -/
theorem failsWith_finalTarget {target : Reference} (h : target.generic = false)
    (replacement : Option Replacement) :
    FailsWith (finalTarget scope path target replacement) Foreseen := by
  have hcheck : ∀ target : Reference, target.generic = false →
      FailsWith (finalTarget.check scope path target) Foreseen := by
    intro target h
    unfold finalTarget.check
    rw [h]
    exact failsWith_ok _
  unfold finalTarget
  split
  · exact hcheck _ h
  · exact hcheck _ h

end

/-! ### Functions -/

/-- If the deferred type cannot be computed, `E` holds of the error. -/
def Deferred.Fails (E : DeclarationError → Prop) (d : Deferred) : Prop :=
  FailsWith d.get E

section

variable {E : DeclarationError → Prop} {path : String} {c : Callable Deferred}

theorem failsWith_toParameter {p : Property Deferred} (hp : p.type.Fails E) :
    FailsWith p.toParameter E :=
  FailsWith.bind hp fun _ _ => failsWith_ok _

theorem failsWith_arrowParameters {ps : List (Property Deferred)}
    (hps : ∀ p ∈ ps, p.type.Fails E) : FailsWith (arrowParameters ps) E := by
  induction ps with
  | nil => exact failsWith_ok _
  | cons p rest ih =>
    obtain ⟨hp, hrest⟩ := List.forall_mem_cons.1 hps
    exact (failsWith_toParameter hp).bind fun _ _ => (ih hrest).bind fun _ _ => failsWith_ok _

theorem failsWith_loweredSignatures (hc : c.Regular) :
    FailsWith (c.loweredSignatures path) Foreseen :=
  Callable.failsWith_expand hc

theorem failsWith_lowered (hc : c.Writes (Deferred.Fails E))
    {signatures : List (Signature Deferred)} (h : c.loweredSignatures path = .ok signatures)
    {s : Signature Deferred} (hs : s ∈ signatures) : FailsWith s.lowered E := by
  have hvoid : Deferred.Fails E (.pure (.ok TypeExpr.void)) := failsWith_ok _
  have hpromise : ∀ d : Deferred, d.Fails E → d.promise.Fails E :=
    fun d hd => FailsWith.map hd _
  have hadmits := (Callable.expanded_of_expand h).admits hc hvoid hpromise hs
  refine FailsWith.bind (FailsWith.mapM fun p hp => ?_) fun _ _ => ?_
  · exact failsWith_toParameter (hadmits.parameters p hp)
  · exact FailsWith.bind hadmits.returns fun _ _ => failsWith_ok _

theorem failsWith_functionType (hsignatures : FailsWith (c.loweredSignatures path) E)
    (hc : c.Writes (Deferred.Fails E)) : FailsWith (c.functionType path) E := by
  unfold Callable.functionType
  split
  · refine hsignatures.bind fun signatures h => ?_
    refine FailsWith.bind (FailsWith.mapM fun s hs => ?_) fun _ _ => failsWith_ok _
    exact (failsWith_lowered hc h hs).bind fun _ _ => failsWith_ok _
  · next hcompletion =>
    refine (failsWith_arrowParameters hc.parameters).bind fun ps _ => ?_
    cases hreturns : c.returns with
    | none => exact failsWith_ok _
    | some result =>
      have hresult : FailsWith result.type.get E := hc.returns hcompletion result hreturns
      exact hresult.bind fun _ _ => failsWith_ok _

theorem failsWith_lowerMethod (hsignatures : FailsWith (c.loweredSignatures path) E)
    (hc : c.Writes (Deferred.Fails E)) (name : String) (doc : Doc) :
    FailsWith (lowerMethod c name path doc) E := by
  refine hsignatures.bind fun signatures h => ?_
  refine FailsWith.mapM fun s hs => ?_
  exact (failsWith_lowered hc h hs).bind fun _ _ => failsWith_ok _

end

/-! ### Types -/

namespace ApiType

/-- A type can fail with foreseen errors only, in each of the roles in which it is met: as a type,
as a function with overloads, and as a completion callback whose parameters become results of
promises. -/
structure FailsForeseen (t : ApiType) : Prop where
  type : ∀ scope path, FailsWith (t.lower scope path) Foreseen
  regular : ∀ scope path, ∀ c ∈ t.lowerCallable? scope path, c.Regular
  callable : ∀ scope path, ∀ c ∈ t.lowerCallable? scope path, c.All (Deferred.Fails Foreseen)
  results : ∀ scope path, ∀ ps ∈ t.lowerResults scope path, ∀ p ∈ ps, p.type.Fails Foreseen

variable {scope : List String} {path : String} {t : ApiType}

/-- A function that is regular has results to promise. -/
theorem isSome_lowerResults (h : t.isFunction = true) :
    (t.lowerResults scope path).isSome = true := by
  cases t with
  | function => rfl
  | _ => cases h

theorem RegularRoot.callable (h : t.RegularRoot) {c : Callable Deferred}
    (hc : t.lowerCallable? scope path = some c) : c.Regular := by
  cases t with
  | function parameters returns completion callbackOnly =>
    cases hc
    obtain ⟨hname, hfunction⟩ := h
    rw [lowerResult_eq_map, lowerCompletion_eq_map]
    constructor
    · intro p hp
      obtain ⟨q, hq, rfl⟩ := Option.map_eq_some_iff.1 hp
      exact hname q hq
    · intro k hk
      obtain ⟨q, hq, rfl⟩ := Option.map_eq_some_iff.1 hk
      exact isSome_lowerResults (hfunction q hq)
  | _ => cases hc

theorem failsWith_lowerItems {ts : List ApiType} (h : ∀ t ∈ ts, t.FailsForeseen) :
    FailsWith (lowerItems scope path ts) Foreseen := by
  rw [lowerItems_eq_mapM]
  exact FailsWith.mapM fun t ht => (h t ht).type scope path

theorem failsWith_lowerMembers {ps : List (Property ApiType)} (h : ∀ p ∈ ps, p.type.FailsForeseen) :
    FailsWith (lowerMembers scope path ps) Foreseen := by
  rw [lowerMembers_eq_mapM]
  refine FailsWith.map (FailsWith.mapM fun p hp => ?_) _
  have hp : p.type.FailsForeseen := h p (Property.mem_of_mem_visible hp)
  unfold lowerMember
  dsimp only
  split
  · next c hc =>
    split at hc
    · exact failsWith_lowerMethod (failsWith_loweredSignatures (hp.regular _ _ c hc))
        (hp.callable _ _ c hc).writes _ _
    · cases hc
  · exact FailsWith.map (hp.type _ _) _

theorem failsWith_lowerIndex {further : Option ApiType} (h : ∀ i ∈ further, i.FailsForeseen) :
    FailsWith (lowerIndex scope path further) Foreseen := by
  cases further with
  | none => exact failsWith_ok _
  | some i => exact ((h i rfl).type scope path).bind fun _ _ => failsWith_ok _

theorem failsWith_lowerObject {properties : List (Property ApiType)} {further : Option ApiType}
    (hproperties : ∀ p ∈ properties, p.type.FailsForeseen)
    (hfurther : ∀ i ∈ further, i.FailsForeseen) :
    FailsWith (lowerObject scope path properties further) Foreseen :=
  (failsWith_lowerMembers hproperties).bind fun _ _ =>
    (failsWith_lowerIndex hfurther).bind fun _ _ => failsWith_ok _

/-- How one type can fail, given how its parts, the properties nested in it and its further members
can. -/
theorem failsWith_lower (hroot : t.RegularRoot) (hparts : ∀ a ∈ t.parts, a.FailsForeseen)
    (hcallable : ∀ c ∈ t.lowerCallable? scope path, c.All (Deferred.Fails Foreseen))
    (hnested : ∀ p ∈ t.nested, p.type.FailsForeseen) (hindex : ∀ i ∈ t.index?, i.FailsForeseen) :
    FailsWith (t.lower scope path) Foreseen := by
  cases t with
  | primitive | literal | number => exact failsWith_unlessParameter (failsWith_ok _)
  | reference target arguments =>
    unfold lower
    split
    · next hfind => exact failsWith_lowerTemplate hfind
    · exact failsWith_lowerAny.bind fun _ _ => failsWith_ok _
    · exact (failsWith_finalTarget hroot _).bind fun _ _ =>
        (failsWith_lowerItems hparts).bind fun _ _ => failsWith_ok _
  | sequence element min max =>
    have helement : element.FailsForeseen := hparts element (List.mem_singleton_self _)
    exact failsWith_unlessParameter ((helement.type scope path).map _)
  | object properties further templates instanceType =>
    refine failsWith_unlessParameter ((failsWith_lowerMembers hnested).bind fun _ _ => ?_)
    exact (failsWith_lowerIndex hindex).bind fun _ _ => failsWith_ok _
  | intersection items => exact failsWith_unlessParameter ((failsWith_lowerItems hparts).map _)
  | choices items => exact failsWith_unlessParameter ((failsWith_lowerItems hparts).map _)
  | function parameters returns completion callbackOnly =>
    exact failsWith_unlessParameter (failsWith_functionType
      (failsWith_loweredSignatures (hroot.callable rfl)) (hcallable _ rfl).writes)

/-- **Regular types fail with foreseen errors only.** -/
theorem Regular.failsForeseen (ht : t.Regular) : t.FailsForeseen := by
  induction ht with
  | @intro t hroot _ _ _ hparts hnested hindex =>
    have hcallable : ∀ scope path, ∀ c ∈ t.lowerCallable? scope path,
        c.All (Deferred.Fails Foreseen) := fun scope path c hc =>
      all_of_lowerCallable? (fun _ => True) (fun _ _ _ => trivial) trivial
        (fun p hp path _ => (hnested p hp).type scope path)
        (fun p hp path _ => (hnested p hp).results scope path) hc
    exact {
      type := fun scope path => failsWith_lower hroot hparts (hcallable scope path) hnested hindex
      regular := fun _ _ _ hc => hroot.callable hc
      callable := hcallable
      results := fun scope _ _ hps =>
        forall_of_lowerResults (fun _ => True) (fun _ _ _ => trivial) trivial
          (fun p hp path _ => (hnested p hp).type scope path) hps }

end ApiType

/-! ### Declaring -/

namespace Announcing

variable {α β γ : Type} {x : Announcing α} {f : α → Announcing β}

/-- From every state, if the computation fails, the error is a foreseen one. -/
def FailsForeseen (x : Announcing α) : Prop :=
  ∀ s, FailsWith (x s).result Foreseen

theorem failsForeseen_pure (a : α) : FailsForeseen (pure a : Announcing α) :=
  fun _ => failsWith_ok a

theorem failsForeseen_lift {result : Except DeclarationError α} (h : FailsWith result Foreseen) :
    FailsForeseen (lift result) :=
  fun _ => h

theorem FailsForeseen.bind (hx : FailsForeseen x)
    (hf : ∀ s a, (x s).result = .ok a → FailsForeseen (f a)) : FailsForeseen (x >>= f) := by
  intro s e he
  cases hr : (x s).result with
  | error e' =>
    rw [bind_eq_of_error hr] at he
    cases he
    exact hx s e hr
  | ok a =>
    rw [bind_eq_of_ok hr] at he
    exact hf s a hr _ e he

theorem FailsForeseen.withScope {names : List String} (hx : FailsForeseen x) :
    FailsForeseen (withScope names x) :=
  fun _ => hx _

theorem FailsForeseen.mapM {f : γ → Announcing β} {xs : List γ}
    (h : ∀ x ∈ xs, FailsForeseen (f x)) : FailsForeseen (xs.mapM f) := by
  induction xs with
  | nil => exact failsForeseen_pure []
  | cons x xs ih =>
    obtain ⟨hx, hxs⟩ := List.forall_mem_cons.1 h
    rw [List.mapM_cons]
    exact hx.bind fun _ _ _ => (ih hxs).bind fun _ _ _ => failsForeseen_pure _

theorem failsForeseen_announce (path : String) (kind : SymbolKind) (deprecated : Bool) :
    FailsForeseen (announce path kind deprecated) :=
  fun _ => failsWith_ok ()

theorem failsForeseen_mute (muted : Bool) : FailsForeseen (mute muted) :=
  fun _ => failsWith_ok ()

theorem failsForeseen_scope : FailsForeseen scope :=
  fun s => failsWith_ok s.scope

theorem failsForeseen_announceMembers (path : String) (ps : List (Property ApiType)) :
    FailsForeseen (announceMembers path ps) := by
  unfold announceMembers
  induction Property.visible ps with
  | nil => exact failsForeseen_pure ()
  | cons p ps ih => exact (failsForeseen_announce _ _ _).bind fun _ _ _ => ih

end Announcing

open Announcing

section

variable {p : Property ApiType}

theorem failsForeseen_declareType (hp : p.type.Regular) (ns : String) :
    FailsForeseen (declareType ns p) := by
  refine FailsForeseen.withScope (failsForeseen_scope.bind fun _ scope _ => ?_)
  dsimp only
  split
  · next properties further _ instanceType htype =>
    rw [htype] at hp
    refine FailsForeseen.bind (failsForeseen_lift ?_) fun _ _ _ => ?_
    · exact ApiType.failsWith_lowerObject (fun p hp' => (hp.nested p hp').failsForeseen)
        fun i hi => (hp.index i hi).failsForeseen
    · exact (failsForeseen_announce _ _ _).bind fun _ _ _ =>
        (failsForeseen_announceMembers _ _).bind fun _ _ _ => failsForeseen_pure _
  · refine FailsForeseen.bind (failsForeseen_lift (hp.failsForeseen.type _ _)) fun _ _ _ => ?_
    exact (failsForeseen_announce _ _ _).bind fun _ _ _ => failsForeseen_pure _

theorem failsForeseen_declareValue (hp : p.type.Regular) (ns : String) :
    FailsForeseen (declareValue ns p) := by
  refine failsForeseen_scope.bind fun _ scope _ => ?_
  have hvalue : FailsWith (valueDeclaration scope p (member ns p.name)) Foreseen := by
    unfold valueDeclaration
    split
    · exact failsWith_ok _
    · refine (hp.failsForeseen.type scope _).bind fun _ _ => ?_
      split_ifs <;> exact failsWith_ok _
  refine (failsForeseen_lift hvalue).bind fun _ _ _ => ?_
  exact (failsForeseen_announce _ _ _).bind fun _ _ _ => failsForeseen_pure _

theorem failsForeseen_declareOverloads {signatures : List (Signature Deferred)}
    (h : ∀ s ∈ signatures, FailsWith s.lowered Foreseen) (p : Property ApiType) (path : String)
    (first : Bool) : FailsForeseen (declareOverloads p path first signatures) := by
  induction signatures generalizing first with
  | nil => exact failsForeseen_pure []
  | cons s rest ih =>
    obtain ⟨hs, hrest⟩ := List.forall_mem_cons.1 h
    unfold declareOverloads
    refine (failsForeseen_mute _).bind fun _ _ _ => ?_
    refine (failsForeseen_announce _ _ _).bind fun _ _ _ => ?_
    exact (failsForeseen_lift hs).bind fun _ _ _ => (ih hrest false).bind fun _ _ _ =>
      failsForeseen_pure _

theorem failsForeseen_declareFunction (hp : p.type.Regular) (ns : String) :
    FailsForeseen (declareFunction ns p) := by
  refine failsForeseen_scope.bind fun _ scope _ => ?_
  split
  · exact failsForeseen_pure []
  · next c hc =>
    have hregular := hp.failsForeseen.regular _ _ c hc
    have hall := hp.failsForeseen.callable _ _ c hc
    refine FailsForeseen.bind (failsForeseen_lift (failsWith_loweredSignatures hregular))
      fun s signatures hsignatures => ?_
    refine (failsForeseen_declareOverloads (fun s hs => ?_) p _ true).bind fun _ _ _ => ?_
    · exact failsWith_lowered hall.writes hsignatures hs
    · exact (failsForeseen_mute _).bind fun _ _ _ => failsForeseen_pure _

end

theorem failsForeseen_declareNamespace {ns : Namespace} (hns : ns.Regular)
    (options : RenderOptions) : FailsForeseen (declareNamespace options ns) := by
  have hmember : ∀ p ∈ (memberGroups options.sortMembers ns.members).1
      ++ (memberGroups options.sortMembers ns.members).2.1
      ++ (memberGroups options.sortMembers ns.members).2.2, p.type.Regular := fun p hp =>
    hns p (Property.mem_of_mem_visible ((memberGroups_perm _ _).mem_iff.1 hp))
  simp only [List.forall_mem_append] at hmember
  obtain ⟨⟨htypes, hvalues⟩, hfunctions⟩ := hmember
  unfold declareNamespace declareMembers
  dsimp only
  refine (failsForeseen_announce _ _ _).bind fun _ _ _ => ?_
  refine FailsForeseen.bind (.mapM fun p hp => failsForeseen_declareType (htypes p hp) _)
    fun _ _ _ => ?_
  refine FailsForeseen.bind (.mapM fun p hp => failsForeseen_declareValue (hvalues p hp) _)
    fun _ _ _ => ?_
  refine FailsForeseen.bind (.mapM fun p hp => failsForeseen_declareFunction (hfunctions p hp) _)
    fun _ _ _ => ?_
  exact failsForeseen_pure _

/-- **Declaring regular namespaces** fails with foreseen errors only. -/
theorem failsForeseen_declareNamespaces {namespaces : List Namespace}
    (h : ∀ ns ∈ namespaces, ns.Regular) (options : RenderOptions) :
    FailsForeseen (declareNamespaces options namespaces) := by
  refine FailsForeseen.bind (.mapM fun ns hns => ?_) fun _ _ _ => failsForeseen_pure _
  have hmem : ns ∈ namespaces := List.mem_of_mem_filter (List.mem_mergeSort.1 hns)
  exact failsForeseen_declareNamespace (h ns hmem) options

/-! ### Positions of template parameters -/

theorem intercalate_append_singleton {α : Type} (sep : List α) {xs : List (List α)} (hxs : xs ≠ [])
    (y : List α) : sep.intercalate (xs ++ [y]) = sep.intercalate xs ++ (sep ++ y) := by
  induction xs with
  | nil => exact absurd rfl hxs
  | cons x xs ih =>
    by_cases hrest : xs = []
    · simp [hrest]
    · rw [List.cons_append, List.intercalate_cons_of_ne_nil (by simp), ih hrest,
        List.intercalate_cons_of_ne_nil hrest]
      simp only [List.append_assoc]

/-- What has a last segment ends with a dot and this segment. -/
theorem exists_of_leaf?_eq_some {path last : String} (h : leaf? path = some last) :
    ∃ front, path = member front last := by
  unfold leaf? at h
  split at h
  · next before rest hsegments =>
    cases h
    have hparts : segments path = (rest.reverse ++ [before]) ++ [last] := by
      rw [← List.reverse_reverse (segments path), hsegments]
      simp
    obtain ⟨front, back, hsplit, hfront, hback⟩ := List.map_eq_append_iff.1 hparts
    obtain ⟨chars, rfl, rfl⟩ := List.map_eq_singleton_iff.1 hback
    have hne : front ≠ [] := by
      rintro rfl
      simp at hfront
    have hjoin : ['.'].intercalate (path.toList.splitOn '.') = path.toList :=
      List.intercalate_splitOn '.'
    rw [hsplit, intercalate_append_singleton _ hne] at hjoin
    refine ⟨String.ofList (['.'].intercalate front), String.toList_injective ?_⟩
    rw [← hjoin]
    simp [member]
  · cases h

theorem exists_of_afterPrefix? {head path : String} (h : (afterPrefix? head path).isSome = true) :
    ∃ back, path = head ++ back := by
  obtain ⟨back, hback⟩ := Option.isSome_iff_exists.1 h
  obtain ⟨chars, hchars, rfl⟩ := Option.map_eq_some_iff.1 hback
  refine ⟨String.ofList chars, String.toList_injective ?_⟩
  rw [String.toList_append, String.toList_ofList]
  exact (List.isPrefixOf?_eq_some_iff_append_eq.1 hchars).symm

namespace GenericSlot

variable {slot : GenericSlot} {path : String}

/-- A slot without a last segment covers one path. -/
theorem eq_of_covers (hleaf : slot.leaf = none) (h : slot.covers path = true) :
    path = slot.within := by
  unfold covers at h
  rw [hleaf] at h
  exact of_decide_eq_true h

/-- A slot with a last segment covers the paths that start as it says and end with this segment. -/
theorem exists_of_covers {last : String} (hleaf : slot.leaf = some last)
    (h : slot.covers path = true) :
    (∃ back, path = slot.within ++ back) ∧ ∃ front, path = member front last := by
  unfold covers at h
  rw [hleaf] at h
  simp only [Bool.and_eq_true, decide_eq_true_eq] at h
  exact ⟨exists_of_afterPrefix? h.1, exists_of_leaf?_eq_some h.2⟩

end GenericSlot

/-- A template parameter of this name can be put in the place of a type at a path: `H` for the
callbacks of three functions of events, and `T` for the value of a setting or the setting of a
content setting. -/
def IsTemplatePosition (path name : String) : Prop :=
  (name = "H" ∧ path ∈ ["events.Event.addListener.callback", "events.Event.removeListener.callback",
    "events.Event.hasListener.callback"]) ∨
  (name = "T" ∧
    ((∃ back, path = member "types.ChromeSetting" back) ∧ (∃ front, path = member front "value") ∨
      (∃ back, path = member "contentSettings.ContentSetting" back) ∧
        ∃ front, path = member front "setting"))

theorem isTemplatePosition_of_covers {slot : GenericSlot} (hslot : slot ∈ genericSlots)
    {path : String} (hcovers : slot.covers path = true) :
    IsTemplatePosition path slot.parameter := by
  simp only [genericSlots, List.mem_cons, List.not_mem_nil, or_false] at hslot
  rcases hslot with rfl | rfl | rfl | rfl | rfl
  · exact .inl ⟨rfl, by simp [GenericSlot.eq_of_covers rfl hcovers]⟩
  · exact .inl ⟨rfl, by simp [GenericSlot.eq_of_covers rfl hcovers]⟩
  · exact .inl ⟨rfl, by simp [GenericSlot.eq_of_covers rfl hcovers]⟩
  · exact .inr ⟨rfl, .inl (GenericSlot.exists_of_covers rfl hcovers)⟩
  · exact .inr ⟨rfl, .inr (GenericSlot.exists_of_covers rfl hcovers)⟩

namespace Compiler

/-! ### Compiling -/

/-- **How a compiler can fail to declare what it parsed.** Whatever the texts, the features, the
history and the options are: an asynchronous function has more results than a promise can have, a
function has too many parameters that may be left out before others, or a template parameter was put
in the place of a type at one of the positions for it, where it is not in scope. -/
theorem compileTexts_error_declaration {c : Compiler} {texts : List String} {e : DeclarationError}
    (h : c.compileTexts texts = .error (.declaration e)) :
    (∃ path count, e = .asyncArity path count) ∨ (∃ path count, e = .tooManyOptional path count) ∨
      ∃ path name, e = .templateReference path name ∧ IsTemplatePosition path name := by
  have hforeseen : e.Foreseen := by
    rcases bind_eq_error_iff.1 h with h | ⟨namespaces, hparse, h⟩
    · obtain ⟨_, -, he⟩ := mapError_eq_error_iff.1 h
      cases he
    · rcases bind_eq_error_iff.1 h with h | ⟨pruned, hprune, h⟩
      · obtain ⟨_, -, he⟩ := mapError_eq_error_iff.1 h
        cases he
      · have hdeclared := failsForeseen_declareNamespaces (regular_of_prune hparse hprune) c.render
        obtain ⟨e', he', he⟩ := mapError_eq_error_iff.1 h
        cases he
        exact hdeclared {} e (map_eq_error_iff.1 (map_eq_error_iff.1 he'))
  cases hforeseen with
  | asyncArity path count => exact .inl ⟨path, count, rfl⟩
  | tooManyOptional path count => exact .inr (.inl ⟨path, count, rfl⟩)
  | templateReference hslot hcovers =>
    exact .inr (.inr ⟨_, _, rfl, isTemplatePosition_of_covers hslot hcovers⟩)

/-- A setting whose value is declared where there is no template parameter. -/
def strayValue : String :=
  "[\x7b\"namespace\": \"types.ChromeSetting\"," ++
    " \"properties\": \x7b\"value\": \x7b\"type\": \"any\"\x7d\x7d\x7d]"

/-- A table in which it is available. -/
def strayFeatures : FeatureTable :=
  FeatureTable.insert {} "api:types.ChromeSetting" {}

/-- Its declaration fails as foreseen. -/
theorem compileTexts_strayValue :
    compileTexts { resolver := { table := strayFeatures } } [strayValue] =
      .error (.declaration (.templateReference "types.ChromeSetting.value" "T")) ∧
    IsTemplatePosition "types.ChromeSetting.value" "T" := by
  have hfails : compileTexts { resolver := { table := strayFeatures } } [strayValue] =
      .error (.declaration (.templateReference "types.ChromeSetting.value" "T")) := by
    decide +kernel
  refine ⟨hfails, ?_⟩
  rcases compileTexts_error_declaration hfails with ⟨_, _, he⟩ | ⟨_, _, he⟩ | ⟨_, _, he, hposition⟩
  · cases he
  · cases he
  · cases he
    exact hposition

end Compiler

end ApiTypings
