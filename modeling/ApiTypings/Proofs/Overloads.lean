import ApiTypings.Declaration.Overload
import ApiTypings.Proofs.Except
import Mathlib.Data.List.Induction
/-!
# The overloads of a function

A parameter list splits into a front that ends with a required parameter and a back of optional
ones. The left-optional parameters are the optional ones of the front. Leaving some of them out says
nothing about the back, and in what is left of the front every parameter is required
(`Property.omissions_append`). So a parameter list that is left has the required parameters first.

`Callable.Expanded` says what the overloads of a function are, family by family, and
`Callable.expanded_of_expand` that expanding it gives just these.
-/

namespace ApiTypings

namespace Property

variable {τ : Type} {p : Property τ} {ps front back rest kept : List (Property τ)}

/-! ### The front and the back -/

/-- A parameter list whose last parameter, if there is one, is required. -/
def EndsRequired (ps : List (Property τ)) : Prop :=
  ∀ q ∈ ps.getLast?, q.optional = false

theorem EndsRequired.tail (h : EndsRequired (p :: ps)) : EndsRequired ps := by
  cases ps with
  | nil => exact forall_mem_none
  | cons q qs =>
    unfold EndsRequired at h ⊢
    rwa [List.getLast?_cons_cons] at h

/-- A parameter list that starts with an optional parameter has a required one after it. -/
theorem EndsRequired.any_required (h : EndsRequired (p :: ps)) (hp : p.optional = true) :
    ps.any (!·.optional) = true := by
  cases hlast : ps.getLast? with
  | none =>
    rw [List.getLast?_eq_none_iff] at hlast
    rw [hlast] at h
    have hrequired := h p rfl
    rw [hp] at hrequired
    cases hrequired
  | some q =>
    have hq : q.optional = false := h q (by rw [List.getLast?_cons, hlast]; rfl)
    exact List.any_eq_true.2 ⟨q, List.mem_of_getLast? hlast, by rw [hq]; rfl⟩

/-- Every parameter list splits into a front and a back. -/
theorem exists_front_back (ps : List (Property τ)) :
    ∃ front back, ps = front ++ back ∧ EndsRequired front ∧ ∀ q ∈ back, q.optional = true := by
  induction ps using List.reverseRecOn with
  | nil => exact ⟨[], [], rfl, forall_mem_none, List.forall_mem_nil _⟩
  | append_singleton ps p ih =>
    -- A required parameter at the end makes everything the front.
    cases hp : p.optional with
    | false =>
      refine ⟨ps ++ [p], [], (List.append_nil _).symm, fun q hq => ?_, List.forall_mem_nil _⟩
      rw [List.getLast?_append, List.getLast?_singleton, Option.some_or, Option.mem_some_iff] at hq
      exact hq ▸ hp
    | true =>
      obtain ⟨front, back, rfl, hfront, hback⟩ := ih
      refine ⟨front, back ++ [p], List.append_assoc .., hfront, fun q hq => ?_⟩
      rcases List.mem_append.1 hq with hq | hq
      · exact hback q hq
      · rw [List.mem_singleton.1 hq]
        exact hp

/-! ### Left-optional parameters -/

/-- Whether a parameter is left-optional does not depend on names and types. -/
theorem isLeftOptional_map {σ : Type} {f : Property σ → Property τ}
    (hf : ∀ p, (f p).optional = p.optional) (p : Property σ) (ps : List (Property σ)) :
    (f p).isLeftOptional (ps.map f) = p.isLeftOptional ps := by
  have hany : ((fun q : Property τ => !q.optional) ∘ f) = fun q => !q.optional :=
    funext fun q => congrArg (!·) (hf q)
  rw [isLeftOptional, isLeftOptional, hf, List.any_map, hany]

/-- In the front every optional parameter is left-optional. -/
theorem isLeftOptional_append (h : EndsRequired (p :: rest)) (back : List (Property τ)) :
    p.isLeftOptional (rest ++ back) = p.optional := by
  unfold isLeftOptional
  cases hp : p.optional with
  | false => rfl
  | true => rw [List.any_append, h.any_required hp, Bool.true_or, Bool.and_true]

/-- In the back no parameter is left-optional. -/
theorem isLeftOptional_of_optional (h : ∀ q ∈ rest, q.optional = true) :
    p.isLeftOptional rest = false := by
  have hany : rest.any (!·.optional) = false :=
    List.any_eq_false.2 fun q hq => by rw [h q hq]; exact Bool.false_ne_true
  rw [isLeftOptional, hany, Bool.and_false]

/-! ### Omissions -/

/-- The parameter lists that result from leaving out some of the optional parameters, those that
stay being required. -/
def choices : List (Property τ) → List (List (Property τ))
  | [] => [[]]
  | p :: rest =>
    if p.optional then (choices rest).flatMap fun kept => [p.required :: kept, kept]
    else (choices rest).map (p :: ·)

theorem choices_cons_of_optional (rest : List (Property τ)) (hp : p.optional = true) :
    choices (p :: rest) = (choices rest).flatMap fun kept => [p.required :: kept, kept] :=
  if_pos hp

theorem choices_cons_of_required (rest : List (Property τ)) (hp : p.optional = false) :
    choices (p :: rest) = (choices rest).map (p :: ·) :=
  if_neg (hp ▸ Bool.false_ne_true)

/-- What is chosen is required. -/
theorem required_of_mem_choices (h : kept ∈ choices ps) : ∀ q ∈ kept, q.optional = false := by
  induction ps generalizing kept with
  | nil =>
    rw [List.mem_singleton.1 h]
    exact List.forall_mem_nil _
  | cons p rest ih =>
    cases hp : p.optional with
    | true =>
      rw [choices_cons_of_optional rest hp, List.mem_flatMap] at h
      obtain ⟨kept', hkept', h⟩ := h
      rcases List.mem_cons.1 h with rfl | h
      · exact List.forall_mem_cons.2 ⟨rfl, ih hkept'⟩
      · rw [List.mem_singleton.1 h]
        exact ih hkept'
    | false =>
      rw [choices_cons_of_required rest hp, List.mem_map] at h
      obtain ⟨kept', hkept', rfl⟩ := h
      exact List.forall_mem_cons.2 ⟨hp, ih hkept'⟩

theorem omissions_of_optional (h : ∀ q ∈ ps, q.optional = true) : omissions ps = [ps] := by
  induction ps with
  | nil => rfl
  | cons p rest ih =>
    obtain ⟨-, hrest⟩ := List.forall_mem_cons.1 h
    rw [omissions, isLeftOptional_of_optional hrest, if_neg Bool.false_ne_true, ih hrest,
      List.map_singleton]

/-- **Leaving parameters out** is choosing in the front and keeping the back. -/
theorem omissions_append (hfront : EndsRequired front) (hback : ∀ q ∈ back, q.optional = true) :
    omissions (front ++ back) = (choices front).map (· ++ back) := by
  induction front with
  | nil => exact omissions_of_optional hback
  | cons p rest ih =>
    rw [List.cons_append, omissions, isLeftOptional_append hfront, ih hfront.tail, choices]
    split
    · rw [List.map_flatMap, List.flatMap_map]
      rfl
    · rw [List.map_map, List.map_map]
      rfl

/-- Leaving parameters out does not look at what a change of parameters does to them, as long as it
leaves them optional or required. -/
theorem omissions_map {σ : Type} {f : Property τ → Property σ}
    (hoptional : ∀ p, (f p).optional = p.optional) (hrequired : ∀ p, f p.required = (f p).required)
    (ps : List (Property τ)) : omissions (ps.map f) = (omissions ps).map (List.map f) := by
  induction ps with
  | nil => rfl
  | cons p ps ih =>
    rw [List.map_cons, omissions, omissions, isLeftOptional_map hoptional, ih]
    split
    · rw [List.map_flatMap, List.flatMap_map]
      simp only [List.map_cons, List.map_nil, hrequired]
    · rw [List.map_map, List.map_map]
      rfl

theorem length_leftOptional_map {σ : Type} {f : Property τ → Property σ}
    (hoptional : ∀ p, (f p).optional = p.optional) (ps : List (Property τ)) :
    (leftOptional (ps.map f)).length = (leftOptional ps).length := by
  have hfrom : ∀ start, leftOptionalFrom start (ps.map f) = leftOptionalFrom start ps := by
    induction ps with
    | nil => exact fun _ => rfl
    | cons p ps ih =>
      intro start
      rw [List.map_cons, leftOptionalFrom, leftOptionalFrom, isLeftOptional_map hoptional, ih]
  exact congrArg List.length (hfrom 0)

/-- Something is always left when parameters are left out. -/
theorem omissions_ne_nil (ps : List (Property τ)) : omissions ps ≠ [] := by
  induction ps with
  | nil => exact List.cons_ne_nil _ _
  | cons p ps ih =>
    obtain ⟨kept, rest, heq⟩ := List.exists_cons_of_ne_nil ih
    rw [omissions, heq]
    split <;> simp

/-- Leaving parameters out changes no type. -/
theorem exists_type_eq_of_mem_omissions (h : kept ∈ omissions ps) :
    ∀ q ∈ kept, ∃ p ∈ ps, q.type = p.type := by
  induction ps generalizing kept with
  | nil =>
    rw [List.mem_singleton.1 h]
    exact List.forall_mem_nil _
  | cons p rest ih =>
    have hrest {kept' : List (Property τ)} (hkept' : kept' ∈ omissions rest) :
        ∀ q ∈ kept', ∃ p' ∈ p :: rest, q.type = p'.type := fun q hq => by
      obtain ⟨p', hp', htype⟩ := ih hkept' q hq
      exact ⟨p', List.mem_cons_of_mem p hp', htype⟩
    rw [omissions] at h
    split at h
    · obtain ⟨kept', hkept', h⟩ := List.mem_flatMap.1 h
      rcases List.mem_cons.1 h with rfl | h
      · exact List.forall_mem_cons.2 ⟨⟨p, List.mem_cons_self .., rfl⟩, hrest hkept'⟩
      · rw [List.mem_singleton.1 h]
        exact hrest hkept'
    · obtain ⟨kept', hkept', rfl⟩ := List.mem_map.1 h
      exact List.forall_mem_cons.2 ⟨⟨p, List.mem_cons_self .., rfl⟩, hrest hkept'⟩

/-- Of a parameter list that is left the optional parameters are the last ones. -/
theorem exists_of_mem_omissions (h : kept ∈ omissions ps) :
    ∃ chosen back, kept = chosen ++ back ∧ (∀ q ∈ chosen, q.optional = false) ∧
      ∀ q ∈ back, q.optional = true := by
  obtain ⟨front, back, rfl, hfront, hback⟩ := exists_front_back ps
  rw [omissions_append hfront hback, List.mem_map] at h
  obtain ⟨chosen, hchosen, rfl⟩ := h
  exact ⟨chosen, back, rfl, required_of_mem_choices hchosen, hback⟩

end Property

/-! ### Families -/

namespace Callable

variable {τ : Type} {void : τ} {promise : τ → τ} {path : String} {c : Callable τ}
  {signatures : List (Signature τ)}

/-- The overloads for one parameter list. -/
def overloads (kind : SignatureKind) (ps : List (Property τ)) (returns : Property τ) :
    List (Signature τ) :=
  (Property.omissions ps).map fun kept => ⟨kind, kept, returns⟩

theorem overloads_ne_nil (kind : SignatureKind) (ps : List (Property τ)) (returns : Property τ) :
    overloads kind ps returns ≠ [] := by
  simp [overloads, Property.omissions_ne_nil]

theorem eq_overloads_of_family {kind : SignatureKind} {ps : List (Property τ)}
    {returns : Property τ} (h : family kind path ps returns = .ok signatures) :
    signatures = overloads kind ps returns := by
  obtain ⟨lists, hlists, rfl⟩ := map_eq_ok_iff.1 h
  unfold Property.boundedOmissions at hlists
  split at hlists
  · cases hlists
  · cases hlists
    rfl

/-- What the overloads of a function are: one family if it is synchronous, and otherwise the promise
family, unless the function is callback-only, and the callback family. -/
inductive Expanded (void : τ) (promise : τ → τ) (path : String) (c : Callable τ) :
    List (Signature τ) → Prop
  | sync (hcompletion : c.completion = none) :
      Expanded void promise path c
        (overloads .sync c.parameters (c.returns.getD (.result void)))
  | callbackOnly {completion : Completion τ} {results : List (Property τ)}
      (hcompletion : c.completion = some completion) (hresults : completion.results = some results)
      (honly : completion.callbackOnly = true) :
      Expanded void promise path c
        (overloads .callback (c.parameters ++ [completion.callback.required]) (.result void))
  | both {completion : Completion τ} {results : List (Property τ)} {returns : Property τ}
      (hcompletion : c.completion = some completion) (hresults : completion.results = some results)
      (honly : completion.callbackOnly = false)
      (hreturns : promiseResult void promise path results = .ok returns) :
      Expanded void promise path c
        (overloads .promise c.parameters returns
          ++ overloads .callback (c.parameters ++ [completion.callback.required]) (.result void))

theorem expanded_of_signatures (h : c.signatures void promise path = .ok signatures) :
    Expanded void promise path c signatures := by
  unfold Callable.signatures at h
  split at h
  next hcompletion =>
    rw [eq_overloads_of_family h]
    exact .sync hcompletion
  next completion hcompletion =>
    split at h
    next => cases h
    next results hresults =>
      cases honly : completion.callbackOnly with
      | true =>
        rw [honly, if_pos rfl] at h
        obtain ⟨promises, hpromises, h⟩ := bind_eq_ok_iff.1 h
        cases hpromises
        obtain ⟨callbacks, hcallbacks, h⟩ := bind_eq_ok_iff.1 h
        cases h
        rw [eq_overloads_of_family hcallbacks]
        exact .callbackOnly hcompletion hresults honly
      | false =>
        rw [honly, if_neg Bool.false_ne_true] at h
        obtain ⟨returns, hreturns, h⟩ := bind_eq_ok_iff.1 h
        obtain ⟨promises, hpromises, h⟩ := bind_eq_ok_iff.1 h
        obtain ⟨callbacks, hcallbacks, h⟩ := bind_eq_ok_iff.1 h
        cases h
        rw [eq_overloads_of_family hpromises, eq_overloads_of_family hcallbacks]
        exact .both hcompletion hresults honly hreturns

/-- **Expanding a function** gives its families. -/
theorem expanded_of_expand (h : c.expand void promise path = .ok signatures) :
    Expanded void promise path c signatures := by
  unfold expand at h
  obtain ⟨all, hall, h⟩ := bind_eq_ok_iff.1 h
  -- What comes after the families only checks them.
  have hsame : all = signatures := by
    cases all with
    | nil => cases h
    | cons s rest =>
      simp only [List.isEmpty_cons, Bool.false_eq_true, if_false] at h
      split at h
      · cases h
      · cases h
        rfl
  exact hsame ▸ expanded_of_signatures hall

/-- A function has overloads. -/
theorem Expanded.ne_nil (h : Expanded void promise path c signatures) : signatures ≠ [] := by
  cases h with
  | sync _ => exact overloads_ne_nil _ _ _
  | callbackOnly _ _ _ => exact overloads_ne_nil _ _ _
  | both _ _ _ _ => exact List.append_ne_nil_of_left_ne_nil (overloads_ne_nil _ _ _) _

/-- The parameters of an overload are what is left of the parameters of the function, or of these
with the callback after them. -/
theorem Expanded.parameters_mem (h : Expanded void promise path c signatures) {s : Signature τ}
    (hs : s ∈ signatures) :
    s.parameters ∈ Property.omissions c.parameters ∨ ∃ completion ∈ c.completion,
      s.parameters ∈ Property.omissions (c.parameters ++ [completion.callback.required]) := by
  have hleft {kind : SignatureKind} {ps : List (Property τ)} {returns : Property τ}
      (hs : s ∈ overloads kind ps returns) : s.parameters ∈ Property.omissions ps := by
    obtain ⟨kept, hkept, rfl⟩ := List.mem_map.1 hs
    exact hkept
  cases h with
  | sync _ => exact .inl (hleft hs)
  | callbackOnly hcompletion _ _ => exact .inr ⟨_, hcompletion, hleft hs⟩
  | both hcompletion _ _ _ =>
    rcases List.mem_append.1 hs with hs | hs
    · exact .inl (hleft hs)
    · exact .inr ⟨_, hcompletion, hleft hs⟩

/-! ### The types of overloads -/

/-- `Q` holds of every type of a function. -/
structure All (Q : τ → Prop) (c : Callable τ) : Prop where
  parameters : ∀ p ∈ c.parameters, Q p.type
  returns : ∀ p ∈ c.returns, Q p.type
  callback : ∀ completion ∈ c.completion, Q completion.callback.type
  results : ∀ completion ∈ c.completion, ∀ ps ∈ completion.results, ∀ p ∈ ps, Q p.type

/-- `Q` holds of every type that is written for a function. An asynchronous function has no result of
its own, and the results of its callback are written where they can be promised. -/
structure Writes (Q : τ → Prop) (c : Callable τ) : Prop where
  parameters : ∀ p ∈ c.parameters, Q p.type
  returns : c.completion = none → ∀ p ∈ c.returns, Q p.type
  callback : ∀ completion ∈ c.completion, Q completion.callback.type
  results : ∀ completion ∈ c.completion, completion.callbackOnly = false →
    ∀ ps ∈ completion.results, ∀ p ∈ ps, Q p.type

theorem All.writes {Q : τ → Prop} (h : c.All Q) : c.Writes Q where
  parameters := h.parameters
  returns _ := h.returns
  callback := h.callback
  results completion hcompletion _ := h.results completion hcompletion

theorem Writes.imp {Q Q' : τ → Prop} (h : c.Writes Q) (hQ : ∀ t, Q t → Q' t) : c.Writes Q' where
  parameters p hp := hQ _ (h.parameters p hp)
  returns hnone p hp := hQ _ (h.returns hnone p hp)
  callback k hk := hQ _ (h.callback k hk)
  results k hk hpromised ps hps p hp := hQ _ (h.results k hk hpromised ps hps p hp)

/-- What is known of the types of an overload: the parameters are left of a list. -/
structure Admits (Q : τ → Prop) (s : Signature τ) : Prop where
  exists_omissions : ∃ ps, s.parameters ∈ Property.omissions ps
  parameters : ∀ p ∈ s.parameters, Q p.type
  returns : Q s.returns.type

/-- The promise family returns a promise of nothing or of a parameter of the callback. -/
theorem type_of_promiseResult {results : List (Property τ)} {returns : Property τ}
    (h : promiseResult void promise path results = .ok returns) :
    returns.type = promise void ∨ ∃ only ∈ results, returns.type = promise only.type := by
  cases results with
  | nil =>
    cases h
    exact .inl rfl
  | cons only rest =>
    cases rest with
    | nil =>
      cases h
      exact .inr ⟨only, List.mem_singleton_self only, rfl⟩
    | cons _ _ => cases h

theorem admits_of_mem_overloads {Q : τ → Prop} {kind : SignatureKind} {ps : List (Property τ)}
    {returns : Property τ} {s : Signature τ} (hs : s ∈ overloads kind ps returns)
    (hps : ∀ p ∈ ps, Q p.type) (hreturns : Q returns.type) : Admits Q s := by
  obtain ⟨kept, hkept, rfl⟩ := List.mem_map.1 hs
  refine ⟨⟨ps, hkept⟩, fun q hq => ?_, hreturns⟩
  obtain ⟨p, hp, htype⟩ := Property.exists_type_eq_of_mem_omissions hkept q hq
  rw [htype]
  exact hps p hp

/-- What holds of the types that are written for a function, of `void` and of promises holds of the
types of its overloads. -/
theorem Expanded.admits {Q : τ → Prop} (h : Expanded void promise path c signatures)
    (hc : c.Writes Q) (hvoid : Q void) (hpromise : ∀ t, Q t → Q (promise t)) {s : Signature τ}
    (hs : s ∈ signatures) : Admits Q s := by
  -- The callback family has the callback after the parameters.
  have hwith {completion : Completion τ} (hcompletion : c.completion = some completion) :
      ∀ p ∈ c.parameters ++ [completion.callback.required], Q p.type := fun p hp => by
    rcases List.mem_append.1 hp with hp | hp
    · exact hc.parameters p hp
    · rw [List.mem_singleton.1 hp]
      exact hc.callback completion hcompletion
  cases h with
  | sync hcompletion =>
    refine admits_of_mem_overloads hs hc.parameters ?_
    cases hreturns : c.returns with
    | none => exact hvoid
    | some p => exact hc.returns hcompletion p hreturns
  | callbackOnly hcompletion _ _ => exact admits_of_mem_overloads hs (hwith hcompletion) hvoid
  | @both completion results returns hcompletion hresults hpromised hreturns =>
    rcases List.mem_append.1 hs with hs | hs
    · refine admits_of_mem_overloads hs hc.parameters ?_
      rcases type_of_promiseResult hreturns with htype | ⟨only, honly, htype⟩
      · exact htype ▸ hpromise void hvoid
      · rw [htype]
        exact hpromise only.type
          (hc.results completion hcompletion hpromised results hresults only honly)
    · exact admits_of_mem_overloads hs (hwith hcompletion) hvoid

end Callable

/-! ### Changes of properties -/

/-- An overload with changed parameters and a changed result. -/
def Signature.map {τ σ : Type} (f : Property τ → Property σ) (s : Signature τ) : Signature σ :=
  ⟨s.kind, s.parameters.map f, f s.returns⟩

/-- The asynchronous side of a function with a changed callback and changed results. -/
def Completion.map {τ σ : Type} (f : Property τ → Property σ) (c : Completion τ) : Completion σ :=
  ⟨f c.callback, c.results.map (List.map f), c.callbackOnly⟩

namespace Callable

variable {τ σ : Type} {f : Property τ → Property σ} {void : τ} {promise : τ → τ} {void' : σ}
  {promise' : σ → σ}

/-- A function with a change made to every property of it. -/
def map (f : Property τ → Property σ) (c : Callable τ) : Callable σ :=
  ⟨c.parameters.map f, c.returns.map f, c.completion.map (Completion.map f)⟩

/-- A change of properties that expanding does not notice: it leaves names and optionality alone, and
does with what expanding makes what expanding makes of what it does. -/
structure Unnoticed (f : Property τ → Property σ) (void : τ) (promise : τ → τ) (void' : σ)
    (promise' : σ → σ) : Prop where
  name_eq : ∀ p, (f p).name = p.name
  optional_eq : ∀ p, (f p).optional = p.optional
  required_eq : ∀ p, f p.required = (f p).required
  void_eq : f (.result void) = .result void'
  promise_void_eq : f (.result (promise void)) = .result (promise' void')
  promise_eq : ∀ p : Property τ,
    f { Property.result (promise p.type) with description := p.description } =
      { Property.result (promise' (f p).type) with description := (f p).description }

namespace Unnoticed

variable (h : Unnoticed f void promise void' promise') (path : String)
include h

theorem map_promiseResult (results : List (Property τ)) :
    (promiseResult void promise path results).map f =
      promiseResult void' promise' path (results.map f) := by
  cases results with
  | nil => exact congrArg Except.ok h.promise_void_eq
  | cons only rest =>
    cases rest with
    | nil => exact congrArg Except.ok (h.promise_eq only)
    | cons next rest =>
      show Except.error (DeclarationError.asyncArity path (rest.length + 1 + 1)) =
        Except.error (DeclarationError.asyncArity path ((rest.map f).length + 1 + 1))
      rw [List.length_map]

theorem map_family (kind : SignatureKind) (ps : List (Property τ)) (returns : Property τ) :
    (family kind path ps returns).map (List.map (Signature.map f)) =
      family kind path (ps.map f) (f returns) := by
  unfold family Property.boundedOmissions
  rw [Property.length_leftOptional_map h.optional_eq,
    Property.omissions_map h.optional_eq h.required_eq]
  split
  · rfl
  · refine congrArg Except.ok ?_
    simp only [List.map_map]
    rfl

theorem map_signatures (c : Callable τ) :
    (c.signatures void promise path).map (List.map (Signature.map f)) =
      (c.map f).signatures void' promise' path := by
  obtain ⟨parameters, returns, completion⟩ := c
  cases completion with
  | none =>
    show (family .sync path parameters _).map _ = family .sync path (parameters.map f) _
    rw [h.map_family]
    cases returns with
    | none => exact congrArg (family _ _ _) h.void_eq
    | some p => rfl
  | some completion =>
    obtain ⟨callback, results, callbackOnly⟩ := completion
    cases results with
    | none => rfl
    | some results =>
      have hcallbacks : (family .callback path (parameters ++ [callback.required])
          (.result void)).map (List.map (Signature.map f)) =
            family .callback path (parameters.map f ++ [(f callback).required]) (.result void') := by
        rw [h.map_family, List.map_append, List.map_singleton, h.required_eq, h.void_eq]
      cases callbackOnly with
      | true =>
        have hnone : (Except.ok [] : Except DeclarationError (List (Signature τ))).map
            (List.map (Signature.map f)) = .ok [] := rfl
        exact map_bind_append hnone hcallbacks
      | false =>
        unfold signatures map Completion.map
        simp only [Option.map_some, Bool.false_eq_true, if_false, ← h.map_promiseResult]
        cases promiseResult void promise path results with
        | error e => rfl
        | ok returns =>
          exact map_bind_append (h.map_family path .promise parameters returns) hcallbacks

/-- **Expanding a function does not notice the change.** -/
theorem map_expand (c : Callable τ) :
    (c.expand void promise path).map (List.map (Signature.map f)) =
      (c.map f).expand void' promise' path := by
  unfold expand
  rw [← h.map_signatures]
  cases c.signatures void promise path with
  | error e => rfl
  | ok all =>
    have hfind : (all.map (Signature.map f)).find? (·.returns.name ≠ Property.returnName) =
        (all.find? (·.returns.name ≠ Property.returnName)).map (Signature.map f) := by
      rw [List.find?_map]
      refine congrArg (Option.map _) (congrArg (List.find? · all) (funext fun s => ?_))
      show decide ((f s.returns).name ≠ _) = _
      rw [h.name_eq]
    cases all with
    | nil => rfl
    | cons s rest =>
      simp only [Except.map, bind, Except.bind] at hfind ⊢
      rw [hfind]
      cases (s :: rest).find? (·.returns.name ≠ Property.returnName) with
      | none => rfl
      | some s' => exact congrArg (Except.error ∘ DeclarationError.returnName path) (h.name_eq _).symm

end Unnoticed

end Callable

end ApiTypings
