import ApiTypings.Proofs.Lowered
import ApiTypings.Proofs.Overloads
import ApiTypings.Proofs.Steady
import ApiTypings.Proofs.Undated
/-!
# Rendering without dates

Dates are written into comments, and nothing else that is rendered depends on them. So namespaces
that are the same but for dates are rendered alike: both succeed or fail with the same error, and
the same symbols are announced (`Renderer.render_undated`). Together with what was said of pruning
this is what a history can change of a compilation (`Compiler.history_only_dates`).

Lowering is compared with an image of itself in which a type is only how it ends to lower it
(`Property.blurred`). Overloads are expanded in the image as they are in the original, because
expanding looks into no type (`Callable.Unnoticed.map_expand`). Of declaring, an announced symbol is
seen and a declaration is not (`Announcing.blurred`).
-/

namespace ApiTypings

@[simp]
theorem Traits.undated_undated (t : Traits) : t.undated.undated = t.undated := by
  obtain ⟨_, _, _, _, _, _, _, feature, availability⟩ := t
  cases availability <;> rfl

/-! ### Overloads -/

/-- A lowered property without dates, with no more of its type than how it ends to lower it. -/
def Property.blurred (p : Property Deferred) : Property (Except DeclarationError Unit) :=
  ⟨p.toTraits.undated, p.name, outcome p.type.get⟩

/-- How it ends to lower the types of an overload. -/
def Signature.ending (s : Signature (Except DeclarationError Unit)) :
    Except DeclarationError Unit := do
  forM s.parameters (·.type)
  s.returns.type

namespace Callable

/-- How it ends to lower the types of all overloads. -/
def endings (c : Callable (Except DeclarationError Unit)) (path : String) :
    Except DeclarationError Unit := do
  forM (← c.expand (.ok ()) id path) Signature.ending

/-- How it ends to lower a function as a type. -/
def ending (c : Callable (Except DeclarationError Unit)) (path : String) :
    Except DeclarationError Unit :=
  match c.completion with
  | some _ => c.endings path
  | none => do
    forM c.parameters (·.type)
    match c.returns with
    | some result => result.type
    | none => pure ()

theorem unnoticed_blurred :
    Unnoticed Property.blurred (.pure (.ok TypeExpr.void)) Deferred.promise (.ok ()) id where
  name_eq := fun _ => rfl
  optional_eq := fun _ => rfl
  required_eq := fun _ => rfl
  void_eq := rfl
  promise_void_eq := rfl
  promise_eq := fun p => congrArg
    (fun type => { Property.result type with description := p.description })
    (outcome_map p.type.get TypeExpr.promise)

/-- Blurring the overloads of a function is expanding the blurred function. -/
theorem map_loweredSignatures (c : Callable Deferred) (path : String) :
    (c.loweredSignatures path).map (List.map (Signature.map Property.blurred)) =
      (c.map Property.blurred).expand (.ok ()) id path :=
  unnoticed_blurred.map_expand path c

end Callable

theorem outcome_toParameter (p : Property Deferred) : outcome p.toParameter = p.blurred.type :=
  outcome_bind_pure _ _

theorem outcome_lowered (s : Signature Deferred) :
    outcome s.lowered = (s.map Property.blurred).ending := by
  show _ = forM (s.parameters.map Property.blurred) _ >>= fun _ => s.returns.blurred.type
  rw [List.forM_map, ← funext outcome_toParameter, ← outcome_mapM]
  exact outcome_bind (fun _ => ()) fun ps => outcome_bind_pure _ _

theorem outcome_arrowParameters (ps : List (Property Deferred)) :
    outcome (arrowParameters ps) = forM (ps.map Property.blurred) (·.type) := by
  induction ps with
  | nil => rfl
  | cons p ps ih =>
    rw [arrowParameters, List.map_cons, List.forM_cons, ← outcome_toParameter, ← ih]
    exact outcome_bind (fun _ => ()) fun parameter => outcome_bind_pure _ _

/-- What is made of every overload ends as lowering all of them does. -/
theorem outcome_mapM_signatures {α : Type} (c : Callable Deferred) (path : String)
    (f : Signature Deferred → Except DeclarationError α)
    (hf : ∀ s, outcome (f s) = outcome s.lowered) :
    outcome (c.loweredSignatures path >>= fun ss => ss.mapM f) =
      (c.map Property.blurred).endings path := by
  show _ = (c.map Property.blurred).expand (.ok ()) id path >>= fun ss => forM ss Signature.ending
  rw [← Callable.map_loweredSignatures]
  refine outcome_bind (List.map (Signature.map Property.blurred)) fun ss => ?_
  rw [outcome_mapM, List.forM_map]
  exact congrArg (forM ss) (funext fun s => (hf s).trans (outcome_lowered s))

theorem outcome_functionType (c : Callable Deferred) (path : String) :
    outcome (c.functionType path) = (c.map Property.blurred).ending path := by
  obtain ⟨parameters, returns, completion⟩ := c
  cases completion with
  | some completion =>
    unfold Callable.functionType
    dsimp only
    rw [← bind_assoc, outcome_bind_pure]
    exact outcome_mapM_signatures _ path _ fun _ => outcome_bind_pure _ _
  | none =>
    show _ = forM (parameters.map Property.blurred) _ >>= fun _ => _
    rw [← outcome_arrowParameters]
    refine outcome_bind (fun _ => ()) fun ps => ?_
    cases returns with
    | none => rfl
    | some result => exact outcome_bind_pure _ _

theorem outcome_lowerMethod (c : Callable Deferred) (name path : String) (doc : Doc) :
    outcome (lowerMethod c name path doc) = (c.map Property.blurred).endings path :=
  outcome_mapM_signatures c path _ fun _ => outcome_bind_pure _ _

/-! ### Types -/

namespace ApiType

@[simp]
theorem isFunction_undated (t : ApiType) : t.undated.isFunction = t.isFunction := by
  cases t <;> rfl

@[simp]
theorem isAny_undated (t : ApiType) : t.undated.isAny = t.isAny := by
  cases t <;> rfl

theorem find?_undated (path : String) (t : ApiType) :
    Replacement.find? path t.undated = Replacement.find? path t := by
  refine Replacement.find?_congr ?_ (isAny_undated t) path
  cases t with
  | reference target arguments =>
    rw [undated, reference?, reference?, undatedItems_eq_map, List.isEmpty_map]
  | _ => rfl

variable {scope : List String}

/-- It ends alike to lower a type and its copy without dates, at every path and in every role: by
itself, as a function that is called, and as a completion callback. -/
structure EndsAlike (scope : List String) (t : ApiType) : Prop where
  lower_eq : ∀ path, outcome (t.undated.lower scope path) = outcome (t.lower scope path)
  callable_eq : ∀ path, (t.undated.lowerCallable? scope path).map (Callable.map Property.blurred) =
    (t.lowerCallable? scope path).map (Callable.map Property.blurred)
  results_eq : ∀ path, (t.undated.lowerResults scope path).map (List.map Property.blurred) =
    (t.lowerResults scope path).map (List.map Property.blurred)

theorem blurred_deferred {p : Property ApiType} (h : EndsAlike scope p.type) (path : String) :
    ((undatedProperty p).deferred scope path).blurred = (p.deferred scope path).blurred := by
  unfold Property.blurred Property.deferred
  dsimp only [Thunk.get]
  rw [toTraits_undatedProperty, name_undatedProperty, type_undatedProperty, Traits.undated_undated,
    h.lower_eq]

section

variable {ts : List ApiType} {ps : List (Property ApiType)} {o : Option (Property ApiType)}

theorem outcome_lowerItems (h : ∀ t ∈ ts, EndsAlike scope t) (path : String) :
    outcome (lowerItems scope path (undatedItems ts)) = outcome (lowerItems scope path ts) := by
  rw [lowerItems_eq_mapM, lowerItems_eq_mapM, undatedItems_eq_map, List.mapM_map]
  exact outcome_congr (map_mapM_congr fun t ht => (h t ht).lower_eq path)

theorem map_lowerVisible (h : ∀ p ∈ ps, EndsAlike scope p.type) (path : String) :
    (lowerVisible scope path (undatedProperties ps)).map Property.blurred =
      (lowerVisible scope path ps).map Property.blurred := by
  simp only [lowerVisible_eq_map, undatedProperties_eq_map, visible_map_undatedProperty,
    List.map_map]
  refine List.map_congr_left fun p hp => ?_
  rw [Function.comp_apply, Function.comp_apply, Function.comp_apply, name_undatedProperty,
    blurred_deferred (h p (Property.mem_of_mem_visible hp))]

theorem map_lowerPromised (h : ∀ p ∈ ps, EndsAlike scope p.type) (path : String) :
    (lowerPromised scope path (undatedProperties ps)).map Property.blurred =
      (lowerPromised scope path ps).map Property.blurred := by
  simp only [lowerPromised_eq_map, undatedProperties_eq_map, visible_map_undatedProperty,
    List.map_map]
  exact List.map_congr_left fun p hp =>
    blurred_deferred (h p (Property.mem_of_mem_visible hp)) path

theorem map_lowerResult (h : ∀ p ∈ o.toList, EndsAlike scope p.type) (path : String) :
    (lowerResult scope path (undatedOption o)).map Property.blurred =
      (lowerResult scope path o).map Property.blurred := by
  cases o with
  | none => rfl
  | some p =>
    have hp := blurred_deferred (h p (List.mem_singleton_self p)) (member path p.name)
    rw [lowerResult_eq_map, lowerResult_eq_map, undatedOption, Option.map_some, Option.map_some,
      Option.map_some, Option.map_some, name_undatedProperty, hp]

theorem map_lowerCompletion (h : ∀ p ∈ o.toList, EndsAlike scope p.type) (path : String)
    (callbackOnly : Bool) :
    (lowerCompletion scope path callbackOnly (undatedOption o)).map
        (Completion.map Property.blurred) =
      (lowerCompletion scope path callbackOnly o).map (Completion.map Property.blurred) := by
  cases o with
  | none => rfl
  | some p =>
    have hp := h p (List.mem_singleton_self p)
    simp only [lowerCompletion_eq_map, undatedOption, Option.map_some, Completion.map,
      name_undatedProperty, type_undatedProperty, blurred_deferred hp, hp.results_eq]

theorem outcome_lowerMember {p : Property ApiType} (h : EndsAlike scope p.type) (path : String) :
    outcome (lowerMember scope path (undatedProperty p)) = outcome (lowerMember scope path p) := by
  have hmethod : (undatedProperty p).mayBeMethod = p.mayBeMethod := by
    rw [toTraits_undatedProperty]
    rfl
  have hcallable := h.callable_eq (member path p.name)
  unfold lowerMember
  dsimp only
  rw [hmethod, name_undatedProperty, type_undatedProperty]
  cases p.mayBeMethod with
  | false =>
    rw [if_neg Bool.false_ne_true, if_neg Bool.false_ne_true]
    dsimp only
    rw [outcome_map, outcome_map, h.lower_eq]
  | true =>
    rw [if_pos rfl, if_pos rfl]
    cases hc : p.type.lowerCallable? scope (member path p.name) with
    | none =>
      rw [hc] at hcallable
      rw [Option.map_eq_none_iff.1 hcallable]
      dsimp only
      rw [outcome_map, outcome_map, h.lower_eq]
    | some c =>
      rw [hc] at hcallable
      obtain ⟨c', hc', hblurred⟩ := Option.map_eq_some_iff.1 hcallable
      rw [hc']
      dsimp only
      rw [outcome_lowerMethod, outcome_lowerMethod, hblurred]

theorem outcome_lowerMembers (h : ∀ p ∈ ps, EndsAlike scope p.type) (path : String) :
    outcome (lowerMembers scope path (undatedProperties ps)) =
      outcome (lowerMembers scope path ps) := by
  rw [lowerMembers_eq_mapM, lowerMembers_eq_mapM, outcome_map, outcome_map,
    undatedProperties_eq_map, visible_map_undatedProperty, List.mapM_map]
  exact outcome_congr (map_mapM_congr fun p hp =>
    outcome_lowerMember (h p (Property.mem_of_mem_visible hp)) path)

theorem outcome_lowerIndex {index : Option ApiType} (h : ∀ i ∈ index, EndsAlike scope i)
    (path : String) :
    outcome (lowerIndex scope path (undatedIndex index)) =
      outcome (lowerIndex scope path index) := by
  cases index with
  | none => rfl
  | some i =>
    rw [undatedIndex, lowerIndex, lowerIndex, outcome_bind_pure, outcome_bind_pure,
      (h i rfl).lower_eq]

end

/-- Where no replacement but a template parameter can take the place of a type, it ends alike to
lower it if it does so otherwise. -/
theorem outcome_lowerUnlessParameter {path : String} {t : ApiType} {otherwise otherwise' : Lowered}
    (h : outcome otherwise' = outcome otherwise) :
    outcome (lowerUnlessParameter scope path t.undated otherwise') =
      outcome (lowerUnlessParameter scope path t otherwise) := by
  unfold lowerUnlessParameter
  rw [find?_undated]
  split
  · rfl
  · exact h

theorem map_lowerCallable? {parameters : List (Property ApiType)}
    {returns completion : Option (Property ApiType)} (callbackOnly : Bool)
    (hparameters : ∀ p ∈ parameters, EndsAlike scope p.type)
    (hreturns : ∀ p ∈ returns.toList, EndsAlike scope p.type)
    (hcompletion : ∀ p ∈ completion.toList, EndsAlike scope p.type) (path : String) :
    Callable.map Property.blurred ⟨lowerVisible scope path (undatedProperties parameters),
        lowerResult scope path (undatedOption returns),
        lowerCompletion scope path callbackOnly (undatedOption completion)⟩ =
      Callable.map Property.blurred ⟨lowerVisible scope path parameters,
        lowerResult scope path returns, lowerCompletion scope path callbackOnly completion⟩ := by
  unfold Callable.map
  dsimp only
  rw [map_lowerVisible hparameters, map_lowerResult hreturns, map_lowerCompletion hcompletion]

/-- **Lowering ends alike with and without dates**, in all roles. -/
theorem endsAlike (t : ApiType) : EndsAlike scope t := by
  induction t using structure_induction with
  | step t hparts hnested hindex =>
    cases t with
    | primitive | literal | number => exact ⟨fun _ => rfl, fun _ => rfl, fun _ => rfl⟩
    | reference target arguments =>
      refine ⟨fun path => ?_, fun _ => rfl, fun _ => rfl⟩
      have hfind := find?_undated path (.reference target arguments)
      rw [undated] at hfind ⊢
      rw [lower, lower, hfind]
      split
      · rfl
      · rfl
      · exact map_bind_congr_right fun target =>
          map_bind_congr (outcome_lowerItems hparts path) fun _ _ _ => rfl
    | sequence element min max =>
      refine ⟨fun path => ?_, fun _ => rfl, fun _ => rfl⟩
      have helement := hparts element (List.mem_singleton_self element)
      refine outcome_lowerUnlessParameter (t := .sequence element min max) ?_
      rw [outcome_map, outcome_map, helement.lower_eq]
    | object properties index templates instanceType =>
      refine ⟨fun path => ?_, fun _ => rfl, fun _ => rfl⟩
      refine outcome_lowerUnlessParameter (t := .object properties index templates instanceType) ?_
      exact map_bind_congr (outcome_lowerMembers hnested path) fun _ _ _ =>
        map_bind_congr (outcome_lowerIndex hindex path) fun _ _ _ => rfl
    | intersection items =>
      refine ⟨fun path => ?_, fun _ => rfl, fun _ => rfl⟩
      refine outcome_lowerUnlessParameter (t := .intersection items) ?_
      rw [outcome_map, outcome_map]
      exact outcome_lowerItems hparts path
    | choices items =>
      refine ⟨fun path => ?_, fun _ => rfl, fun _ => rfl⟩
      refine outcome_lowerUnlessParameter (t := .choices items) ?_
      rw [outcome_map, outcome_map]
      exact outcome_lowerItems hparts path
    | function parameters returns completion callbackOnly =>
      have hparameters : ∀ p ∈ parameters, EndsAlike scope p.type := fun p hp => hnested p
        (List.mem_append_left _ (List.mem_append_left _ hp))
      have hcallable := map_lowerCallable? callbackOnly hparameters
        (fun p hp => hnested p (List.mem_append_left _ (List.mem_append_right _ hp)))
        (fun p hp => hnested p (List.mem_append_right _ hp))
      refine ⟨fun path => ?_, fun path => congrArg some (hcallable path), fun path => ?_⟩
      · refine outcome_lowerUnlessParameter
          (t := .function parameters returns completion callbackOnly) ?_
        rw [outcome_functionType, outcome_functionType, hcallable]
      · exact congrArg some (map_lowerPromised hparameters _)

end ApiType

/-! ### Announcing -/

namespace Announcing

variable {α α' β β' γ : Type}

/-- A computation without the value that it comes to. -/
def blurred (x : Announcing α) : Announcing Unit :=
  fun s => ⟨outcome (x s).result, (x s).symbols, (x s).state⟩

variable {x : Announcing α} {f : α → Announcing β}

theorem blurred_bind_congr_right {g : α → Announcing β'} (h : ∀ a, (f a).blurred = (g a).blurred) :
    (x >>= f).blurred = (x >>= g).blurred := by
  funext s
  unfold blurred
  cases hx : (x s).result with
  | error e => rw [bind_eq_of_error hx, bind_eq_of_error hx]; rfl
  | ok a =>
    obtain ⟨hresult, hsymbols, hstate⟩ := Announced.mk.inj (congrFun (h a) (x s).state)
    rw [bind_eq_of_ok hx, bind_eq_of_ok hx]
    dsimp only
    rw [hresult, hsymbols, hstate]

/-- A result of which no more is seen than `v`. -/
theorem blurred_lift_bind_congr {r : Except DeclarationError α} {r' : Except DeclarationError α'}
    {g : α' → Announcing β'} {v : α → γ} {v' : α' → γ} (hr : r.map v = r'.map v')
    (h : ∀ a b, v a = v' b → (f a).blurred = (g b).blurred) :
    (lift r >>= f).blurred = (lift r' >>= g).blurred := by
  cases r with
  | error e =>
    obtain rfl : r' = .error e := map_eq_error_iff.1 hr.symm
    rfl
  | ok a =>
    obtain ⟨b, rfl, hb⟩ := map_eq_ok_iff.1 hr.symm
    exact h a b hb.symm

theorem blurred_bind_congr {y : Announcing α'} {g : α' → Announcing β'}
    (hxy : x.blurred = y.blurred) (h : ∀ a b, (f a).blurred = (g b).blurred) :
    (x >>= f).blurred = (y >>= g).blurred := by
  funext s
  obtain ⟨hresult, hsymbols, hstate⟩ := Announced.mk.inj (congrFun hxy s)
  unfold blurred
  cases hx : (x s).result with
  | error e =>
    rw [hx] at hresult
    have hy : (y s).result = .error e := map_eq_error_iff.1 hresult.symm
    rw [bind_eq_of_error hx, bind_eq_of_error hy, hsymbols, hstate]
    rfl
  | ok a =>
    rw [hx] at hresult
    obtain ⟨b, hy, -⟩ := map_eq_ok_iff.1 hresult.symm
    obtain ⟨hresult', hsymbols', hstate'⟩ := Announced.mk.inj (congrFun (h a b) (x s).state)
    rw [bind_eq_of_ok hx, bind_eq_of_ok hy, ← hsymbols, ← hstate]
    dsimp only
    rw [hresult', hsymbols', hstate']

theorem blurred_mapM_congr {e : γ → γ} {f : γ → Announcing β} {g : γ → Announcing β'} {xs : List γ}
    (h : ∀ x ∈ xs, (f (e x)).blurred = (g x).blurred) :
    ((xs.map e).mapM f).blurred = (xs.mapM g).blurred := by
  induction xs with
  | nil => rfl
  | cons x xs ih =>
    obtain ⟨hx, hxs⟩ := List.forall_mem_cons.1 h
    rw [List.map_cons, List.mapM_cons, List.mapM_cons]
    exact blurred_bind_congr hx fun _ _ => blurred_bind_congr (ih hxs) fun _ _ => rfl

theorem blurred_withScope (names : List String) (x : Announcing α) :
    (withScope names x).blurred = withScope names x.blurred :=
  rfl

end Announcing

/-! ### Declaring -/

open ApiType

theorem memberKind_undated (p : Property ApiType) : memberKind (undatedProperty p) = memberKind p := by
  unfold memberKind
  rw [toTraits_undatedProperty, type_undatedProperty, isFunction_undated]
  rfl

theorem announceMembers_undated (path : String) (ps : List (Property ApiType)) :
    announceMembers path (undatedProperties ps) = announceMembers path ps := by
  unfold announceMembers
  rw [undatedProperties_eq_map, visible_map_undatedProperty, List.forM_eq_forM, List.forM_map]
  refine congrArg (forM _) (funext fun p => ?_)
  rw [memberKind_undated, name_undatedProperty, toTraits_undatedProperty]
  rfl

theorem blurred_declareScopedType (p : Property ApiType) (path : String)
    (templates : Option String) :
    (declareScopedType (undatedProperty p) path templates).blurred =
      (declareScopedType p path templates).blurred := by
  obtain ⟨traits, name, type⟩ := p
  unfold declareScopedType
  refine Announcing.blurred_bind_congr_right fun scope => ?_
  have hlower := (@endsAlike scope type).lower_eq path
  cases type with
  | object properties index templates' instanceType =>
    have hmembers : outcome (lowerObject scope path (undatedProperties properties)
        (undatedIndex index)) = outcome (lowerObject scope path properties index) :=
      map_bind_congr (outcome_lowerMembers (fun p _ => endsAlike p.type) path) fun _ _ _ =>
        map_bind_congr (outcome_lowerIndex (fun i _ => endsAlike i) path) fun _ _ _ => rfl
    refine Announcing.blurred_lift_bind_congr hmembers fun ms ms' _ => ?_
    refine Announcing.blurred_bind_congr rfl fun _ _ => ?_
    rw [announceMembers_undated]
    exact Announcing.blurred_bind_congr rfl fun _ _ => rfl
  | _ =>
    exact Announcing.blurred_lift_bind_congr hlower fun t t' _ =>
      Announcing.blurred_bind_congr rfl fun _ _ => rfl

theorem blurred_declareType (ns : String) (p : Property ApiType) :
    (declareType ns (undatedProperty p)).blurred = (declareType ns p).blurred := by
  have htemplates : ∀ path, templatesOf? path p.type.undated = templatesOf? path p.type := by
    intro path
    cases p.type <;> rfl
  unfold declareType
  dsimp only
  rw [name_undatedProperty, type_undatedProperty, htemplates, Announcing.blurred_withScope,
    blurred_declareScopedType, ← Announcing.blurred_withScope]

/-- How it ends to declare a value, and what it is announced as. -/
theorem map_valueDeclaration (scope : List String) (p : Property ApiType) (path : String) :
    (valueDeclaration scope (undatedProperty p) path).map Prod.fst =
      (valueDeclaration scope p path).map Prod.fst := by
  obtain ⟨⟨optional, isType, isConst, isEvent, _, _, _, _, _⟩, name, type⟩ := p
  have hlower := (@endsAlike scope type).lower_eq path
  unfold valueDeclaration
  cases type with
  | literal value =>
    cases isConst with
    | true => rfl
    | false =>
      refine map_bind_congr hlower fun t u _ => ?_
      cases isEvent <;> rfl
  | _ =>
    refine map_bind_congr hlower fun t u _ => ?_
    cases isEvent <;> cases isConst <;> rfl

theorem blurred_declareValue (ns : String) (p : Property ApiType) :
    (declareValue ns (undatedProperty p)).blurred = (declareValue ns p).blurred := by
  unfold declareValue
  dsimp only
  rw [name_undatedProperty]
  refine Announcing.blurred_bind_congr_right fun scope => ?_
  refine Announcing.blurred_lift_bind_congr (map_valueDeclaration scope p _) fun d d' hkind => ?_
  obtain ⟨kind, declaration⟩ := d
  obtain ⟨kind', declaration'⟩ := d'
  obtain rfl : kind = kind' := hkind
  dsimp only
  rw [toTraits_undatedProperty]
  exact Announcing.blurred_bind_congr rfl fun _ _ => rfl

theorem blurred_declareOverloads (p : Property ApiType) (path : String) (first : Bool)
    {signatures signatures' : List (Signature Deferred)}
    (h : signatures.map (Signature.map Property.blurred) =
      signatures'.map (Signature.map Property.blurred)) :
    (declareOverloads (undatedProperty p) path first signatures).blurred =
      (declareOverloads p path first signatures').blurred := by
  induction signatures generalizing first signatures' with
  | nil =>
    obtain rfl : signatures' = [] := List.map_eq_nil_iff.1 h.symm
    rfl
  | cons s rest ih =>
    obtain ⟨s', rest', rfl, hs, hrest⟩ := List.map_eq_cons_iff.1 h.symm
    have hlowered : outcome s.lowered = outcome s'.lowered := by
      rw [outcome_lowered, outcome_lowered, hs]
    unfold declareOverloads
    refine Announcing.blurred_bind_congr rfl fun _ _ => ?_
    rw [toTraits_undatedProperty]
    refine Announcing.blurred_bind_congr rfl fun _ _ => ?_
    refine Announcing.blurred_lift_bind_congr hlowered fun t u _ => ?_
    exact Announcing.blurred_bind_congr (ih false hrest.symm) fun _ _ => rfl

theorem blurred_declareFunction (ns : String) (p : Property ApiType) :
    (declareFunction ns (undatedProperty p)).blurred = (declareFunction ns p).blurred := by
  unfold declareFunction
  dsimp only
  rw [name_undatedProperty, type_undatedProperty]
  refine Announcing.blurred_bind_congr_right fun scope => ?_
  have hcallable := (@endsAlike scope p.type).callable_eq (member ns p.name)
  cases hc : p.type.lowerCallable? scope (member ns p.name) with
  | none =>
    rw [hc] at hcallable
    rw [Option.map_eq_none_iff.1 hcallable]
  | some c =>
    rw [hc] at hcallable
    obtain ⟨c', hc', hblurred⟩ := Option.map_eq_some_iff.1 hcallable
    rw [hc']
    have hsignatures :
        (c'.loweredSignatures (member ns p.name)).map (List.map (Signature.map Property.blurred)) =
          (c.loweredSignatures (member ns p.name)).map (List.map (Signature.map Property.blurred)) := by
      rw [Callable.map_loweredSignatures, Callable.map_loweredSignatures, hblurred]
    refine Announcing.blurred_lift_bind_congr hsignatures fun ss ss' hss => ?_
    exact Announcing.blurred_bind_congr (blurred_declareOverloads p _ true hss) fun _ _ => rfl

/-! ### Namespaces -/

namespace Namespace

theorem name_undated (ns : Namespace) : ns.undated.name = ns.name :=
  rfl

theorem hasVisibleMembers_undated (ns : Namespace) :
    ns.undated.hasVisibleMembers = ns.hasVisibleMembers := by
  unfold hasVisibleMembers undated
  dsimp only
  rw [undatedProperties_eq_map, List.any_map]
  refine congrArg (!ns.nodoc && ·) (congrArg (List.any ns.members) (funext fun p => ?_))
  rw [Function.comp_apply, toTraits_undatedProperty]
  rfl

end Namespace

theorem memberGroups_undated (sorted : Bool) (ps : List (Property ApiType)) :
    memberGroups sorted (undatedProperties ps) =
      ((memberGroups sorted ps).1.map undatedProperty, (memberGroups sorted ps).2.1.map undatedProperty,
        (memberGroups sorted ps).2.2.map undatedProperty) := by
  have hvisible : Property.visible (undatedProperties ps) =
      (Property.visible ps).map undatedProperty := by
    rw [undatedProperties_eq_map, visible_map_undatedProperty]
  have htype : ∀ p, (undatedProperty p).isType = p.isType := by
    intro p
    rw [toTraits_undatedProperty]
    rfl
  refine memberGroups_map name_undatedProperty htype (fun p => ?_) hvisible sorted
  rw [type_undatedProperty, isFunction_undated]

/-- **A namespace is declared alike without dates.** -/
theorem blurred_declareNamespace (options : RenderOptions) (ns : Namespace) :
    (declareNamespace options ns.undated).blurred = (declareNamespace options ns).blurred := by
  refine Announcing.blurred_bind_congr rfl fun _ _ => ?_
  unfold declareMembers
  rw [show ns.undated.members = undatedProperties ns.members from rfl, memberGroups_undated]
  refine Announcing.blurred_bind_congr
    (Announcing.blurred_mapM_congr fun p _ => blurred_declareType ns.name p) fun _ _ => ?_
  refine Announcing.blurred_bind_congr
    (Announcing.blurred_mapM_congr fun p _ => blurred_declareValue ns.name p) fun _ _ => ?_
  exact Announcing.blurred_bind_congr
    (Announcing.blurred_mapM_congr fun p _ => blurred_declareFunction ns.name p) fun _ _ => rfl

/-- **Namespaces are declared alike without dates.** -/
theorem blurred_declareNamespaces (options : RenderOptions) (namespaces : List Namespace) :
    (declareNamespaces options (namespaces.map Namespace.undated)).blurred =
      (declareNamespaces options namespaces).blurred := by
  unfold declareNamespaces
  dsimp only
  rw [visibleNamespaces_map Namespace.name_undated Namespace.hasVisibleMembers_undated]
  exact Announcing.blurred_bind_congr
    (Announcing.blurred_mapM_congr fun ns _ => blurred_declareNamespace options ns) fun _ _ => rfl

namespace Renderer

/-- **Dates do not change what is declared.** Namespaces are rendered with the same outcome and the
same symbols as their copies without dates, and the renderer is left alike. -/
theorem render_undated (r : Renderer) (namespaces : List Namespace) :
    outcome (r.render (namespaces.map Namespace.undated)).text = outcome (r.render namespaces).text ∧
    (r.render (namespaces.map Namespace.undated)).symbols = (r.render namespaces).symbols ∧
    (r.render (namespaces.map Namespace.undated)).next = (r.render namespaces).next := by
  obtain ⟨hresult, hsymbols, hstate⟩ := Announced.mk.inj
    (congrFun (blurred_declareNamespaces r.options namespaces) r.state)
  unfold render
  refine ⟨?_, hsymbols, congrArg (Renderer.mk r.options) hstate⟩
  rw [outcome_map, outcome_map, hresult]

end Renderer

/-! ### Main result -/

namespace Compiler

/-- **A history changes dates and nothing else.** Take any two histories, or one history and none.

* Every namespace is pruned to the same namespace but for dates, or with the same error.
* So is a list of namespaces: in particular pruning succeeds with both histories or with none.
* What is left of a list is rendered alike: both renderings succeed, or fail with the same error, and
  the same symbols are announced, in the same order, of the same kinds and with the same
  deprecations. -/
theorem history_only_dates (c : Compiler) (history history' : Option History)
    (namespaces : List Namespace) :
    (∀ ns : Namespace, (ns.prune (c.withHistory history).resolver).map Namespace.undated =
      (ns.prune (c.withHistory history').resolver).map Namespace.undated) ∧
    ((c.withHistory history).prune namespaces).map (List.map Namespace.undated) =
      ((c.withHistory history').prune namespaces).map (List.map Namespace.undated) ∧
    ∀ pruned pruned', (c.withHistory history).prune namespaces = .ok pruned →
      (c.withHistory history').prune namespaces = .ok pruned' → ∀ r : Renderer,
        outcome (r.render pruned).text = outcome (r.render pruned').text ∧
          (r.render pruned).symbols = (r.render pruned').symbols := by
  have hpruned := c.map_prune_withHistory history history' namespaces
  refine ⟨fun ns => ns.map_prune_undated (c.resolver.sameButDates_withHistory history history'),
    hpruned, fun pruned pruned' h h' r => ?_⟩
  rw [h, h'] at hpruned
  have hundated : pruned.map Namespace.undated = pruned'.map Namespace.undated :=
    Except.ok.inj hpruned
  obtain ⟨htext, hsymbols, -⟩ := r.render_undated pruned
  obtain ⟨htext', hsymbols', -⟩ := r.render_undated pruned'
  rw [← htext, ← htext', ← hsymbols, ← hsymbols', hundated]
  exact ⟨rfl, rfl⟩

/-- A history that dates a namespace and deprecates a type in it. -/
def datedType : History where
  entries := [("a", { firstStable := some 3 }), ("a.T", { deprecatedAt := some 7 })]

/-- A compiler without a history that knows one namespace. -/
def internalSecret : Compiler where
  resolver := Namespace.internalSecret

/-- With the history the type is dated, and without it it is not. The same symbols are declared. -/
theorem prune_datedType : ∃ pruned pruned',
    (internalSecret.withHistory (some datedType)).prune [Namespace.keyedSecrets] = .ok pruned ∧
    (internalSecret.withHistory none).prune [Namespace.keyedSecrets] = .ok pruned' ∧
    pruned.flatMap (fun n => n.members.map (·.feature.deprecatedSince)) = [some 7] ∧
    pruned'.flatMap (fun n => n.members.map (·.feature.deprecatedSince)) = [none] ∧
    pruned.map Namespace.undated = pruned'.map Namespace.undated ∧
    (Renderer.render {} pruned).symbols = (Renderer.render {} pruned').symbols := by
  obtain ⟨-, hprune, hrender⟩ :=
    history_only_dates internalSecret (some datedType) none [Namespace.keyedSecrets]
  have hdated : ((internalSecret.withHistory (some datedType)).prune [Namespace.keyedSecrets]).map
      (·.flatMap fun n => n.members.map (·.feature.deprecatedSince)) = .ok [some 7] := by
    decide +kernel
  have hundated : ((internalSecret.withHistory none).prune [Namespace.keyedSecrets]).map
      (·.flatMap fun n => n.members.map (·.feature.deprecatedSince)) = .ok [none] := by
    decide +kernel
  obtain ⟨pruned, h, hseven⟩ := map_eq_ok_iff.1 hdated
  obtain ⟨pruned', h', hnone⟩ := map_eq_ok_iff.1 hundated
  rw [h, h'] at hprune
  exact ⟨pruned, pruned', h, h', hseven, hnone, Except.ok.inj hprune, (hrender _ _ h h' {}).2⟩

end Compiler

end ApiTypings
