import ApiTypings.Proofs.Lowered
import ApiTypings.Proofs.Overloads
/-!
# How lowering builds expressions

Lowering builds an expression from expressions in a few ways, and whatever all of them keep holds of
every expression that a type is lowered to. `KeptByBuilding` lists the ways;
`KeptByBuilding.lower_of_calls` is the induction over types.

* Of the parameter lists that it builds, of arrow types as of overloads, something may be known
  beforehand (`Callable.Makes`): it is if it is known of every function in the type (`ApiType.Calls`).
  Of all of them the parameters that may be left out are the last ones (`OptionalLast`).
* Of the names that it writes something may be known from the place where it writes them, which is the
  path and the template parameters in scope (`NamesAt`). Where nothing is, any name may be written
  (`KeptByLowering`).
-/

namespace ApiTypings

/-! ### Optional parameters -/

/-- No parameter that may be left out is followed by one that has to be there. -/
def OptionalLast {τ : Type} (ps : List (Parameter τ)) : Prop :=
  ps.Pairwise fun p q => p.optional = true → q.optional = true

instance {τ : Type} (ps : List (Parameter τ)) : Decidable (OptionalLast ps) :=
  inferInstanceAs (Decidable (List.Pairwise _ ps))

theorem optionalLast_append {τ : Type} {ps qs : List (Parameter τ)}
    (hps : ∀ p ∈ ps, p.optional = false) (hqs : ∀ q ∈ qs, q.optional = true) :
    OptionalLast (ps ++ qs) := by
  refine List.pairwise_append.2 ⟨?_, ?_, fun p hp _ _ hoptional => ?_⟩
  · refine List.pairwise_of_forall_mem_list fun p hp q _ hoptional => ?_
    rw [hps p hp] at hoptional
    cases hoptional
  · exact List.pairwise_of_forall_mem_list fun p _ q hq _ => hqs q hq
  · rw [hps p hp] at hoptional
    cases hoptional

/-- A parameter of the declaration may be left out if the property may. -/
theorem toParameter_eq_ok {p : Property Deferred} {q : Parameter TypeExpr}
    (h : p.toParameter = .ok q) : q.optional = p.optional ∧ p.type.get = .ok q.type := by
  obtain ⟨e, he, h⟩ := bind_eq_ok_iff.1 h
  cases h
  exact ⟨rfl, he⟩

/-- In an arrow type the parameters of the front are required. -/
theorem arrowParameters_append {front back : List (Property Deferred)}
    (hfront : Property.EndsRequired front) {qs : List (Parameter TypeExpr)}
    (h : arrowParameters (front ++ back) = .ok qs) :
    ∃ before after, qs = before ++ after ∧ (∀ q ∈ before, q.optional = false) ∧
      arrowParameters back = .ok after := by
  induction front generalizing qs with
  | nil => exact ⟨[], qs, rfl, List.forall_mem_nil _, h⟩
  | cons p rest ih =>
    rw [List.cons_append, arrowParameters] at h
    obtain ⟨q, hq, h⟩ := bind_eq_ok_iff.1 h
    obtain ⟨qs', hqs', h⟩ := bind_eq_ok_iff.1 h
    cases h
    obtain ⟨before, after, rfl, hbefore, hafter⟩ := ih hfront.tail hqs'
    -- An optional parameter of the front is left-optional, so it is written as a required one.
    refine ⟨_ :: before, after, rfl, List.forall_mem_cons.2 ⟨?_, hbefore⟩, hafter⟩
    rw [Property.isLeftOptional_append hfront]
    split
    next => rfl
    next hp => rw [(toParameter_eq_ok hq).1, Bool.of_not_eq_true hp]

/-- In an arrow type the parameters of the back are optional. -/
theorem optional_arrowParameters {back : List (Property Deferred)}
    (hback : ∀ p ∈ back, p.optional = true) {qs : List (Parameter TypeExpr)}
    (h : arrowParameters back = .ok qs) : ∀ q ∈ qs, q.optional = true := by
  induction back generalizing qs with
  | nil =>
    cases h
    exact List.forall_mem_nil _
  | cons p rest ih =>
    obtain ⟨hp, hrest⟩ := List.forall_mem_cons.1 hback
    obtain ⟨q, hq, h⟩ := bind_eq_ok_iff.1 h
    obtain ⟨qs', hqs', h⟩ := bind_eq_ok_iff.1 h
    cases h
    refine List.forall_mem_cons.2 ⟨?_, ih hrest hqs'⟩
    rw [Property.isLeftOptional_of_optional hrest, if_neg Bool.false_ne_true,
      (toParameter_eq_ok hq).1, hp]

/-- **Arrow types**: the parameters that may be left out are the last ones. -/
theorem optionalLast_arrowParameters {ps : List (Property Deferred)} {qs : List (Parameter TypeExpr)}
    (h : arrowParameters ps = .ok qs) : OptionalLast qs := by
  obtain ⟨front, back, rfl, hfront, hback⟩ := Property.exists_front_back ps
  obtain ⟨before, after, rfl, hbefore, hafter⟩ := arrowParameters_append hfront h
  exact optionalLast_append hbefore (optional_arrowParameters hback hafter)

theorem optional_of_mapM_toParameter {ps : List (Property Deferred)} {b : Bool}
    (hps : ∀ p ∈ ps, p.optional = b) {qs : List (Parameter TypeExpr)}
    (h : ps.mapM Property.toParameter = .ok qs) : ∀ q ∈ qs, q.optional = b := by
  intro q hq
  obtain ⟨p, hp, hpq⟩ := exists_left_of_mem (mapM_eq_ok_iff.1 h) hq
  rw [(toParameter_eq_ok hpq).1, hps p hp]

/-- **Overloads**: the parameters that may be left out are the last ones. -/
theorem optionalLast_of_mem_omissions {ps kept : List (Property Deferred)}
    (hkept : kept ∈ Property.omissions ps) {qs : List (Parameter TypeExpr)}
    (h : kept.mapM Property.toParameter = .ok qs) : OptionalLast qs := by
  obtain ⟨chosen, back, rfl, hchosen, hback⟩ := Property.exists_of_mem_omissions hkept
  rw [List.mapM_append] at h
  obtain ⟨before, hbefore, h⟩ := bind_eq_ok_iff.1 h
  obtain ⟨after, hafter, h⟩ := bind_eq_ok_iff.1 h
  cases h
  exact optionalLast_append (optional_of_mapM_toParameter hchosen hbefore)
    (optional_of_mapM_toParameter hback hafter)

/-! ### The parameter lists of functions -/

/-- `R` holds of every parameter list that a function is written with: of that of an arrow type, and
of those of overloads. -/
structure Callable.Makes (R : List (Parameter TypeExpr) → Prop) (c : Callable Deferred) : Prop where
  arrow : ∀ ps, arrowParameters c.parameters = .ok ps → R ps
  overload : ∀ path signatures, c.loweredSignatures path = .ok signatures → ∀ s ∈ signatures,
    ∀ ps, s.parameters.mapM Property.toParameter = .ok ps → R ps

/-- **Every function** is written with the parameters last that may be left out. -/
theorem Callable.makes_optionalLast (c : Callable Deferred) : c.Makes OptionalLast where
  arrow _ h := optionalLast_arrowParameters h
  overload path signatures h s hs ps hps := by
    rcases (Callable.expanded_of_expand h).parameters_mem hs with hkept | ⟨_, -, hkept⟩
    · exact optionalLast_of_mem_omissions hkept hps
    · exact optionalLast_of_mem_omissions hkept hps

namespace ApiType

/-- The type `u` is met in a type, at any depth. -/
inductive Inside (u : ApiType) : ApiType → Prop
  | refl : Inside u u
  | part {t a : ApiType} (ha : a ∈ t.parts) (h : Inside u a) : Inside u t
  | nested {t : ApiType} {p : Property ApiType} (hp : p ∈ t.nested) (h : Inside u p.type) :
      Inside u t
  | index {t i : ApiType} (hi : i ∈ t.index?) (h : Inside u i) : Inside u t

/-- `R` holds of every parameter list that a function in the type is written with. -/
def Calls (R : List (Parameter TypeExpr) → Prop) (t : ApiType) : Prop :=
  ∀ u : ApiType, u.Inside t → ∀ scope path, ∀ c ∈ u.lowerCallable? scope path, c.Makes R

theorem calls_optionalLast (t : ApiType) : t.Calls OptionalLast :=
  fun _ _ _ _ c _ => c.makes_optionalLast

end ApiType

/-! ### The ways of building -/

/-- What is known of the parameters of an arrow type, a method or a call if `R` holds of every
parameter list and `P` of every type that is built. -/
structure ParametersHold (R : List (Parameter TypeExpr) → Prop) (P : TypeExpr → Prop)
    (ps : List (Parameter TypeExpr)) : Prop where
  list : R ps
  types : ∀ p ∈ ps, P p.type

/-- What is known of a member of an object. -/
def ObjectMember.Holds (R : List (Parameter TypeExpr) → Prop) (P : TypeExpr → Prop) :
    ObjectMember TypeExpr → Prop
  | property _ _ _ type => P type
  | method _ _ parameters returns => ParametersHold R P parameters ∧ P returns
  | call parameters returns => ParametersHold R P parameters ∧ P returns
  | index type => P type

/-- `P` is kept by every way in which lowering builds an expression from names of which `N` holds and
from parameter lists of which `R` holds. It joins no fewer than two items. -/
structure KeptByBuilding (N : Reference → List TypeExpr → Prop)
    (R : List (Parameter TypeExpr) → Prop) (P : TypeExpr → Prop) : Prop where
  keyword (word : String) : P (.keyword word)
  literal (value : Literal) : P (.literal value)
  named (target : Reference) {arguments : List TypeExpr} :
    N target arguments → (∀ e ∈ arguments, P e) → P (.named target arguments)
  array {element : TypeExpr} : P element → P (.array element)
  tuple {elements : List TypeExpr} {rest : Option TypeExpr} :
    (∀ e ∈ elements, P e) → (∀ e ∈ rest, P e) → P (.tuple elements rest)
  intersection {items : List TypeExpr} :
    2 ≤ items.length → (∀ e ∈ items, P e) → P (.intersection items)
  union {items : List TypeExpr} : 2 ≤ items.length → (∀ e ∈ items, P e) → P (.union items)
  arrow {parameters : List (Parameter TypeExpr)} {returns : TypeExpr} :
    ParametersHold R P parameters → P returns → P (.arrow parameters returns)
  object {members : List (ObjectMember TypeExpr)} :
    (∀ m ∈ members, m.Holds R P) → P (.object members)

/-- `P` is kept whatever the names are. -/
abbrev KeptByLowering (R : List (Parameter TypeExpr) → Prop) (P : TypeExpr → Prop) : Prop :=
  KeptByBuilding (fun _ _ => True) R P

/-- Where `Here` holds of the template parameters in scope and of the path, lowering writes a name only
if `N` holds of it and of its arguments, and all that is nested is lowered at such a place too. -/
structure NamesAt (Here : List String → String → Prop) (N : Reference → List TypeExpr → Prop) :
    Prop where
  below {scope : List String} {path : String} (name : String) :
    Here scope path → Here scope (member path name)
  promise (result : TypeExpr) : N ⟨"Promise", true, false⟩ [result]
  template {scope : List String} {path name : String} :
    Here scope path → scope.contains name = true → N ⟨name, false, true⟩ []
  applied {scope : List String} {path : String} {target : Reference} {arguments : List ApiType} :
    Here scope path → Replacement.find? path (.reference target arguments) = some .applyToAny →
      ∀ argument, N target [argument]
  reference {scope : List String} {path : String} {target final : Reference}
      {arguments : List ApiType} {items : List TypeExpr} :
    Here scope path →
      (∀ name, Replacement.find? path (.reference target arguments) ≠ some (.parameter name)) →
      Replacement.find? path (.reference target arguments) ≠ some .applyToAny →
      finalTarget scope path target (Replacement.find? path (.reference target arguments)) =
        .ok final → items.length = arguments.length → N final items

/-- Of the names at any place nothing need be known. -/
theorem namesAt_any : NamesAt (fun _ _ => True) fun _ _ => True where
  below _ _ := trivial
  promise _ := trivial
  template _ _ := trivial
  applied _ _ _ := trivial
  reference _ _ _ _ _ := trivial

/-- If the deferred type can be computed, `P` holds of it. -/
def Deferred.Holds (P : TypeExpr → Prop) (d : Deferred) : Prop :=
  ∀ e, d.get = .ok e → P e

variable {Here : List String → String → Prop} {N : Reference → List TypeExpr → Prop}
  {R : List (Parameter TypeExpr) → Prop} {P : TypeExpr → Prop} {scope : List String} {path : String}

namespace KeptByBuilding

theorem orUndefined (hP : KeptByBuilding N R P) {e : TypeExpr} (he : P e) : P e.orUndefined :=
  hP.union (Nat.le_refl 2) (List.forall_mem_cons.2 ⟨he, List.forall_mem_singleton.2 (hP.keyword _)⟩)

theorem promise (hP : KeptByBuilding N R P) (hN : NamesAt Here N) {e : TypeExpr} (he : P e) :
    P e.promise :=
  hP.named _ (hN.promise e) (List.forall_mem_singleton.2 he)

theorem two_le_length {items : List TypeExpr} (hnil : items ≠ []) (hone : ∀ e, items ≠ [e]) :
    2 ≤ items.length := by
  cases items with
  | nil => exact absurd rfl hnil
  | cons e rest =>
    cases rest with
    | nil => exact absurd rfl (hone e)
    | cons e' rest => exact Nat.le_add_left 2 rest.length

theorem allOf (hP : KeptByBuilding N R P) {items : List TypeExpr} (h : ∀ e ∈ items, P e) :
    P (.allOf items) := by
  unfold TypeExpr.allOf
  split
  · exact hP.keyword _
  · exact h _ (List.mem_singleton_self _)
  · next hnil hone => exact hP.intersection (two_le_length hnil hone) h

theorem oneOf (hP : KeptByBuilding N R P) {items : List TypeExpr} (h : ∀ e ∈ items, P e) :
    P (.oneOf items) := by
  unfold TypeExpr.oneOf
  split
  · exact hP.keyword _
  · exact h _ (List.mem_singleton_self _)
  · next hnil hone => exact hP.union (two_le_length hnil hone) h

theorem boundedArray (hP : KeptByBuilding N R P) {element : TypeExpr} (helement : P element) (min : ℕ)
    (max : Option ℕ) : P (element.boundedArray min max) := by
  have hopen : P (if min = 0 then .array element
      else .tuple (List.replicate (Nat.min min TypeExpr.maxTupleExpansion) element)
        (some element)) := by
    split
    · exact hP.array helement
    · refine hP.tuple (fun e he => List.eq_of_mem_replicate he ▸ helement) fun e he => ?_
      exact Option.mem_some_iff.1 he ▸ helement
  unfold TypeExpr.boundedArray
  dsimp only
  split
  · exact hopen
  · split
    · refine hP.oneOf fun e he => ?_
      obtain ⟨extra, -, rfl⟩ := List.mem_map.1 he
      exact hP.tuple (fun e he => List.eq_of_mem_replicate he ▸ helement) forall_mem_none
    · exact hopen

/-! ### Functions -/

/-- Types of parameters are computed from deferred ones. -/
theorem types_of_mapM_toParameter {ps : List (Property Deferred)}
    (hps : ∀ p ∈ ps, p.type.Holds P) {qs : List (Parameter TypeExpr)}
    (h : ps.mapM Property.toParameter = .ok qs) : ∀ q ∈ qs, P q.type := by
  intro q hq
  obtain ⟨p, hp, hpq⟩ := exists_left_of_mem (mapM_eq_ok_iff.1 h) hq
  exact hps p hp q.type (toParameter_eq_ok hpq).2

theorem types_of_arrowParameters (hP : KeptByBuilding N R P) {ps : List (Property Deferred)}
    (hps : ∀ p ∈ ps, p.type.Holds P) {qs : List (Parameter TypeExpr)}
    (h : arrowParameters ps = .ok qs) : ∀ q ∈ qs, P q.type := by
  induction ps generalizing qs with
  | nil =>
    cases h
    exact List.forall_mem_nil _
  | cons p rest ih =>
    obtain ⟨hp, hrest⟩ := List.forall_mem_cons.1 hps
    obtain ⟨q, hq, h⟩ := bind_eq_ok_iff.1 h
    obtain ⟨qs', hqs', h⟩ := bind_eq_ok_iff.1 h
    cases h
    have hq : P q.type := hp q.type (toParameter_eq_ok hq).2
    refine List.forall_mem_cons.2 ⟨?_, ih hrest hqs'⟩
    split
    · exact hP.orUndefined hq
    · exact hq

/-- **The overloads of a function**: `R` holds of their parameter lists, and `P` of their types if
it holds of those of the function. -/
theorem lowered_overload (hP : KeptByBuilding N R P) (hN : NamesAt Here N) {c : Callable Deferred}
    (hmakes : c.Makes R) (hc : c.All (·.Holds P)) {signatures : List (Signature Deferred)}
    (h : c.loweredSignatures path = .ok signatures)
    {s : Signature Deferred} (hs : s ∈ signatures) {ps : List (Parameter TypeExpr)}
    {returns : TypeExpr} (hlowered : s.lowered = .ok (ps, returns)) :
    ParametersHold R P ps ∧ P returns := by
  have hvoid : Deferred.Holds P (.pure (.ok TypeExpr.void)) := fun e he => by
    cases he
    exact hP.keyword _
  have hpromise : ∀ d : Deferred, d.Holds P → d.promise.Holds P := fun d hd e he => by
    obtain ⟨result, hresult, rfl⟩ := map_eq_ok_iff.1 he
    exact hP.promise hN (hd result hresult)
  have hadmits := (Callable.expanded_of_expand h).admits hc.writes hvoid hpromise hs
  obtain ⟨qs, hqs, hlowered⟩ := bind_eq_ok_iff.1 hlowered
  obtain ⟨e, he, hlowered⟩ := bind_eq_ok_iff.1 hlowered
  cases hlowered
  exact ⟨⟨hmakes.overload path signatures h s hs _ hqs,
    types_of_mapM_toParameter hadmits.parameters hqs⟩, hadmits.returns _ he⟩

theorem functionType (hP : KeptByBuilding N R P) (hN : NamesAt Here N) {c : Callable Deferred}
    (hmakes : c.Makes R) (hc : c.All (·.Holds P)) {e : TypeExpr} (h : c.functionType path = .ok e) :
    P e := by
  unfold Callable.functionType at h
  split at h
  -- An asynchronous function is an object with a call for each overload, and another one an arrow.
  next =>
    obtain ⟨signatures, hsignatures, h⟩ := bind_eq_ok_iff.1 h
    obtain ⟨members, hmembers, h⟩ := bind_eq_ok_iff.1 h
    cases h
    refine hP.object fun m hm => ?_
    obtain ⟨s, hs, hsm⟩ := exists_left_of_mem (mapM_eq_ok_iff.1 hmembers) hm
    obtain ⟨⟨ps, returns⟩, hlowered, hsm⟩ := bind_eq_ok_iff.1 hsm
    cases hsm
    exact hP.lowered_overload hN hmakes hc hsignatures hs hlowered
  next =>
    obtain ⟨ps, hps, h⟩ := bind_eq_ok_iff.1 h
    have hparameters : ParametersHold R P ps :=
      ⟨hmakes.arrow ps hps, hP.types_of_arrowParameters hc.parameters hps⟩
    cases hresult : c.returns with
    | none =>
      rw [hresult] at h
      cases h
      exact hP.arrow hparameters (hP.keyword _)
    | some result =>
      rw [hresult] at h
      obtain ⟨returns, hreturns, h⟩ := bind_eq_ok_iff.1 h
      cases h
      exact hP.arrow hparameters (hc.returns result hresult returns hreturns)

theorem lowerMethod (hP : KeptByBuilding N R P) (hN : NamesAt Here N) {c : Callable Deferred}
    (hmakes : c.Makes R) (hc : c.All (·.Holds P)) {name : String} {doc : Doc}
    {members : List (ObjectMember TypeExpr)} (h : lowerMethod c name path doc = .ok members) :
    ∀ m ∈ members, m.Holds R P := by
  obtain ⟨signatures, hsignatures, h⟩ := bind_eq_ok_iff.1 h
  intro m hm
  obtain ⟨s, hs, hsm⟩ := exists_left_of_mem (mapM_eq_ok_iff.1 h) hm
  obtain ⟨⟨ps, returns⟩, hlowered, hsm⟩ := bind_eq_ok_iff.1 hsm
  cases hsm
  exact hP.lowered_overload hN hmakes hc hsignatures hs hlowered

end KeptByBuilding

namespace ApiType

variable {Q : Deferred → Prop} {t : ApiType}

/-- The parameters, the result and the callback of a function are properties nested in it. What is
known of these may be so only at certain paths (`Within`), as long as the way down keeps to them. -/
theorem all_of_lowerCallable? (Within : String → Prop)
    (hbelow : ∀ path name, Within path → Within (member path name)) (hpath : Within path)
    (htype : ∀ p ∈ t.nested, ∀ path, Within path → Q (p.deferred scope path).type)
    (hresults : ∀ p ∈ t.nested, ∀ path, Within path →
      ∀ ps ∈ p.type.lowerResults scope path, ∀ q ∈ ps, Q q.type)
    {c : Callable Deferred} (h : t.lowerCallable? scope path = some c) : c.All Q := by
  cases t with
  | function parameters returns completion callbackOnly =>
    cases h
    have hparameter : ∀ p ∈ parameters, p ∈ parameters ++ returns.toList ++ completion.toList :=
      fun p hp => List.mem_append_left _ (List.mem_append_left _ hp)
    have hreturn : ∀ p ∈ returns, p ∈ parameters ++ returns.toList ++ completion.toList :=
      fun p hp => List.mem_append_left _ (List.mem_append_right _ (Option.mem_toList.2 hp))
    have hcallback : ∀ p ∈ completion, p ∈ parameters ++ returns.toList ++ completion.toList :=
      fun p hp => List.mem_append_right _ (Option.mem_toList.2 hp)
    rw [lowerVisible_eq_map, lowerResult_eq_map, lowerCompletion_eq_map]
    constructor
    case parameters =>
      intro p hp
      obtain ⟨q, hq, rfl⟩ := List.mem_map.1 hp
      exact htype q (hparameter q (Property.mem_of_mem_visible hq)) _ (hbelow _ _ hpath)
    case returns =>
      intro p hp
      obtain ⟨q, hq, rfl⟩ := Option.map_eq_some_iff.1 hp
      exact htype q (hreturn q hq) _ (hbelow _ _ hpath)
    case callback =>
      intro k hk
      obtain ⟨q, hq, rfl⟩ := Option.map_eq_some_iff.1 hk
      exact htype q (hcallback q hq) _ (hbelow _ _ hpath)
    case results =>
      intro k hk
      obtain ⟨q, hq, rfl⟩ := Option.map_eq_some_iff.1 hk
      exact hresults q (hcallback q hq) path hpath
  | _ => cases h

/-- The results of a callback are its parameters, which are nested in it. -/
theorem forall_of_lowerResults (Within : String → Prop)
    (hbelow : ∀ path name, Within path → Within (member path name)) (hpath : Within path)
    (htype : ∀ p ∈ t.nested, ∀ path, Within path → Q (p.deferred scope path).type)
    {ps : List (Property Deferred)} (h : t.lowerResults scope path = some ps) :
    ∀ p ∈ ps, Q p.type := by
  cases t with
  | function parameters returns completion callbackOnly =>
    cases h
    rw [lowerPromised_eq_map]
    intro p hp
    obtain ⟨q, hq, rfl⟩ := List.mem_map.1 hp
    have hmem : q ∈ parameters ++ returns.toList ++ completion.toList :=
      List.mem_append_left _ (List.mem_append_left _ (Property.mem_of_mem_visible hq))
    exact htype q hmem _ (hbelow _ _ hpath)
  | _ => cases h

end ApiType

/-! ### Types -/

/-- `P` holds of what a type is lowered to at a place of which `Here` holds, in each of the roles in
which it is met: as a type, as a function with overloads, and as a completion callback whose
parameters become results of promises. -/
structure ApiType.LowersAt (Here : List String → String → Prop)
    (R : List (Parameter TypeExpr) → Prop) (P : TypeExpr → Prop) (t : ApiType) : Prop where
  type : ∀ scope path, Here scope path → ∀ e, t.lower scope path = .ok e → P e
  makes : ∀ scope path, ∀ c ∈ t.lowerCallable? scope path, c.Makes R
  callable : ∀ scope path, Here scope path →
    ∀ c ∈ t.lowerCallable? scope path, c.All (·.Holds P)
  results : ∀ scope path, Here scope path →
    ∀ ps ∈ t.lowerResults scope path, ∀ p ∈ ps, p.type.Holds P

open ApiType

namespace KeptByBuilding

theorem template (hP : KeptByBuilding N R P) (hN : NamesAt Here N) (hhere : Here scope path)
    {name : String} {e : TypeExpr} (h : lowerTemplate scope path name = .ok e) : P e := by
  unfold lowerTemplate at h
  split at h
  · next hscope =>
    cases h
    exact hP.named _ (hN.template hhere hscope) (List.forall_mem_nil _)
  · cases h

theorem unlessParameter (hP : KeptByBuilding N R P) (hN : NamesAt Here N) (hhere : Here scope path)
    {t : ApiType} {otherwise : Lowered} (hotherwise : ∀ e, otherwise = .ok e → P e) {e : TypeExpr}
    (h : lowerUnlessParameter scope path t otherwise = .ok e) : P e := by
  unfold lowerUnlessParameter at h
  split at h
  · exact hP.template hN hhere h
  · exact hotherwise e h

theorem lowerAny (hP : KeptByBuilding N R P) (hN : NamesAt Here N) (hhere : Here scope path)
    {e : TypeExpr} (h : lowerAny scope path = .ok e) : P e := by
  unfold ApiTypings.lowerAny at h
  split at h
  · exact hP.template hN hhere h
  · cases h
    exact hP.keyword _

theorem items {ts : List ApiType} (hts : ∀ t ∈ ts, t.LowersAt Here R P) (hhere : Here scope path)
    {es : List TypeExpr} (h : lowerItems scope path ts = .ok es) : ∀ e ∈ es, P e := by
  rw [lowerItems_eq_mapM] at h
  intro e he
  obtain ⟨t, ht, hte⟩ := exists_left_of_mem (mapM_eq_ok_iff.1 h) he
  exact (hts t ht).type scope path hhere e hte

theorem length_items {ts : List ApiType} {es : List TypeExpr}
    (h : lowerItems scope path ts = .ok es) : es.length = ts.length := by
  rw [lowerItems_eq_mapM] at h
  exact (mapM_eq_ok_iff.1 h).length_eq.symm

theorem members (hP : KeptByBuilding N R P) (hN : NamesAt Here N) (hhere : Here scope path)
    {ps : List (Property ApiType)} (hps : ∀ p ∈ ps, p.type.LowersAt Here R P)
    {members : List (ObjectMember TypeExpr)} (h : lowerMembers scope path ps = .ok members) :
    ∀ m ∈ members, m.Holds R P := by
  rw [lowerMembers_eq_mapM] at h
  obtain ⟨lists, hlists, rfl⟩ := map_eq_ok_iff.1 h
  intro m hm
  obtain ⟨ms, hms, hm⟩ := List.mem_flatten.1 hm
  obtain ⟨p, hp, hpms⟩ := exists_left_of_mem (mapM_eq_ok_iff.1 hlists) hms
  have hp := hps p (Property.mem_of_mem_visible hp)
  have hchild : Here scope (member path p.name) := hN.below p.name hhere
  unfold lowerMember at hpms
  dsimp only at hpms
  split at hpms
  next c hc =>
    split at hc
    · exact hP.lowerMethod hN (hp.makes scope _ c hc) (hp.callable scope _ hchild c hc) hpms m hm
    · cases hc
  next =>
    obtain ⟨e, he, rfl⟩ := map_eq_ok_iff.1 hpms
    rw [List.mem_singleton.1 hm]
    exact hp.type scope _ hchild e he

theorem index {further : Option ApiType} (hfurther : ∀ i ∈ further, i.LowersAt Here R P)
    (hhere : Here scope path) {members : List (ObjectMember TypeExpr)}
    (h : lowerIndex scope path further = .ok members) : ∀ m ∈ members, m.Holds R P := by
  cases further with
  | none =>
    cases h
    exact List.forall_mem_nil _
  | some i =>
    obtain ⟨e, he, h⟩ := bind_eq_ok_iff.1 h
    cases h
    exact List.forall_mem_singleton.2 ((hfurther i rfl).type scope path hhere e he)

theorem callable (hN : NamesAt Here N) (hhere : Here scope path) {t : ApiType}
    (hnested : ∀ p ∈ t.nested, p.type.LowersAt Here R P)
    {c : Callable Deferred} (h : t.lowerCallable? scope path = some c) : c.All (·.Holds P) :=
  all_of_lowerCallable? (Here scope) (fun _ name h => hN.below name h) hhere
    (fun p hp => (hnested p hp).type scope) (fun p hp => (hnested p hp).results scope) h

/-- What one type is lowered to, given what its parts, the properties nested in it and its further
members are lowered to. -/
theorem lower_of_parts (hP : KeptByBuilding N R P) (hN : NamesAt Here N) (hhere : Here scope path)
    {t : ApiType} (hparts : ∀ a ∈ t.parts, a.LowersAt Here R P)
    (hmakes : ∀ c ∈ t.lowerCallable? scope path, c.Makes R)
    (hnested : ∀ p ∈ t.nested, p.type.LowersAt Here R P)
    (hfurther : ∀ i ∈ t.index?, i.LowersAt Here R P)
    {e : TypeExpr} (h : t.lower scope path = .ok e) : P e := by
  cases t with
  | primitive word =>
    refine hP.unlessParameter hN hhere (fun e he => ?_) h
    cases he
    exact hP.keyword _
  | literal value =>
    refine hP.unlessParameter hN hhere (fun e he => ?_) h
    cases he
    exact hP.literal value
  | number integer minimum maximum =>
    refine hP.unlessParameter hN hhere (fun e he => ?_) h
    cases he
    exact hP.keyword _
  | reference target arguments =>
    -- What takes the place of a reference: a template parameter, an application to `any` or, as
    -- when nothing does, a reference with the arguments.
    unfold ApiType.lower at h
    split at h
    · exact hP.template hN hhere h
    · next happlied =>
      obtain ⟨argument, hargument, h⟩ := bind_eq_ok_iff.1 h
      cases h
      exact hP.named target (hN.applied hhere happlied argument)
        (List.forall_mem_singleton.2 (hP.lowerAny hN hhere hargument))
    · next hparameter happlied =>
      obtain ⟨final, hfinal, h⟩ := bind_eq_ok_iff.1 h
      obtain ⟨items, hitems, h⟩ := bind_eq_ok_iff.1 h
      cases h
      exact hP.named final (hN.reference hhere hparameter happlied hfinal (length_items hitems))
        (KeptByBuilding.items hparts hhere hitems)
  | sequence element min max =>
    refine hP.unlessParameter hN hhere (fun e he => ?_) h
    obtain ⟨element', helement, rfl⟩ := map_eq_ok_iff.1 he
    have helement' : P element' :=
      (hparts element (List.mem_singleton_self _)).type scope path hhere element' helement
    exact hP.boundedArray helement' min max
  | object properties further templates instanceType =>
    refine hP.unlessParameter hN hhere (fun e he => ?_) h
    obtain ⟨members, hmembers, he⟩ := bind_eq_ok_iff.1 he
    obtain ⟨indexMembers, hindex, he⟩ := bind_eq_ok_iff.1 he
    cases he
    exact hP.object (List.forall_mem_append.2
      ⟨hP.members hN hhere hnested hmembers, index hfurther hhere hindex⟩)
  | intersection items =>
    refine hP.unlessParameter hN hhere (fun e he => ?_) h
    obtain ⟨items', hitems, rfl⟩ := map_eq_ok_iff.1 he
    exact hP.allOf (KeptByBuilding.items hparts hhere hitems)
  | choices items =>
    refine hP.unlessParameter hN hhere (fun e he => ?_) h
    obtain ⟨items', hitems, rfl⟩ := map_eq_ok_iff.1 he
    exact hP.oneOf (KeptByBuilding.items hparts hhere hitems)
  | function parameters returns completion callbackOnly =>
    exact hP.unlessParameter hN hhere
      (fun e he => hP.functionType hN (hmakes _ rfl) (callable hN hhere hnested rfl) he) h

/-- **What every way of building keeps** holds of everything that a type is lowered to, if `N` holds of
the names that are written and `R` of every parameter list that a function in the type is written with.
-/
theorem lower_of_calls (hP : KeptByBuilding N R P) (hN : NamesAt Here N) {t : ApiType}
    (ht : t.Calls R) : t.LowersAt Here R P := by
  induction t using structure_induction with
  | step t hparts hnested hfurther =>
    have hparts : ∀ a ∈ t.parts, a.LowersAt Here R P := fun a ha =>
      hparts a ha fun u hu => ht u (.part ha hu)
    have hnested : ∀ p ∈ t.nested, p.type.LowersAt Here R P := fun p hp =>
      hnested p hp fun u hu => ht u (.nested hp hu)
    have hfurther : ∀ i ∈ t.index?, i.LowersAt Here R P := fun i hi =>
      hfurther i hi fun u hu => ht u (.index hi hu)
    have hmakes : ∀ scope path, ∀ c ∈ t.lowerCallable? scope path, c.Makes R := ht t .refl
    exact {
      type := fun scope path hhere e he =>
        hP.lower_of_parts hN hhere hparts (hmakes scope path) hnested hfurther he
      makes := hmakes
      callable := fun scope path hhere c hc => callable hN hhere hnested hc
      results := fun scope _ hhere ps hps =>
        forall_of_lowerResults (Here scope) (fun _ name h => hN.below name h) hhere
          (fun p hp => (hnested p hp).type scope) hps }

/-- The members that an object type is lowered to. -/
theorem lowerObject (hP : KeptByBuilding N R P) (hN : NamesAt Here N) (hhere : Here scope path)
    {properties : List (Property ApiType)} {further : Option ApiType}
    (hproperties : ∀ p ∈ properties, p.type.Calls R) (hfurther : ∀ i ∈ further, i.Calls R)
    {members : List (ObjectMember TypeExpr)}
    (h : lowerObject scope path properties further = .ok members) : ∀ m ∈ members, m.Holds R P := by
  obtain ⟨own, hown, h⟩ := bind_eq_ok_iff.1 h
  obtain ⟨indexMembers, hindex, h⟩ := bind_eq_ok_iff.1 h
  cases h
  exact List.forall_mem_append.2
    ⟨hP.members hN hhere (fun p hp => hP.lower_of_calls hN (hproperties p hp)) hown,
      index (fun i hi => hP.lower_of_calls hN (hfurther i hi)) hhere hindex⟩

end KeptByBuilding

/-- What is built with the optional parameters last holds of what any type is lowered to. -/
theorem KeptByLowering.lower (hP : KeptByLowering OptionalLast P) {t : ApiType} {e : TypeExpr}
    (h : t.lower scope path = .ok e) : P e :=
  (KeptByBuilding.lower_of_calls hP namesAt_any t.calls_optionalLast).type scope path trivial e h

end ApiTypings
