import ApiTypings.Proofs.Lowered
/-!
# Declaring a copy without what is hidden

What is hidden is left out twice: `Namespace.visible` drops it from a copy, and a rendering passes
over it on the way. The two agree but for completion callbacks: a copy loses a hidden one, and the
function is no longer asynchronous, while a rendering does not ask whether a callback is hidden.

* `ApiType.rendered` is the copy that keeps every completion callback. Whatever is hidden and
  wherever it is, rendering it is the same as rendering the original (`Renderer.render_copies`).
* `ApiType.HidesCallback` says that a hidden callback is met on the way through what is shown. That
  is exactly when the two copies differ (`ApiType.visible_eq_rendered_iff`).
-/

namespace ApiTypings

/-! ### The copy that is rendered -/

namespace ApiType

mutual

/-- The type without its hidden properties, but with every completion callback. -/
def rendered : ApiType → ApiType
  | .primitive word => .primitive word
  | .literal value => .literal value
  | .number integer minimum maximum => .number integer minimum maximum
  | .reference target arguments => .reference target (renderedItems arguments)
  | .sequence element min max => .sequence element.rendered min max
  | .object properties index templates instanceType =>
    .object (renderedProperties properties) index templates instanceType
  | .intersection items => .intersection (renderedItems items)
  | .choices items => .choices (renderedItems items)
  | .function parameters returns completion callbackOnly =>
    .function (renderedProperties parameters) (renderedOption returns) (renderedOption completion)
      callbackOnly

/-- Each of the types without its hidden properties. -/
def renderedItems : List ApiType → List ApiType
  | [] => []
  | t :: ts => t.rendered :: renderedItems ts

/-- The property with what is rendered of its type. -/
def renderedInside : Property ApiType → Property ApiType
  | ⟨traits, name, type⟩ => ⟨traits, name, type.rendered⟩

/-- The properties that are not hidden, each with what is rendered of its type. -/
def renderedProperties : List (Property ApiType) → List (Property ApiType)
  | [] => []
  | p :: ps => if p.nodoc then renderedProperties ps else renderedInside p :: renderedProperties ps

/-- What is rendered of a result or a completion callback, hidden or not. -/
def renderedOption : Option (Property ApiType) → Option (Property ApiType)
  | none => none
  | some p => some (renderedInside p)

end

@[simp]
theorem toTraits_renderedInside (p : Property ApiType) : (renderedInside p).toTraits = p.toTraits := by
  cases p
  rfl

@[simp]
theorem name_renderedInside (p : Property ApiType) : (renderedInside p).name = p.name := by
  cases p
  rfl

@[simp]
theorem type_renderedInside (p : Property ApiType) : (renderedInside p).type = p.type.rendered := by
  cases p
  rfl

theorem renderedItems_eq_map (ts : List ApiType) : renderedItems ts = ts.map rendered := by
  induction ts with
  | nil => rfl
  | cons t ts ih => rw [renderedItems, ih, List.map_cons]

theorem renderedProperties_eq_map (ps : List (Property ApiType)) :
    renderedProperties ps = (Property.visible ps).map renderedInside := by
  induction ps with
  | nil => rfl
  | cons p ps ih =>
    by_cases h : p.nodoc = true
    · rw [renderedProperties, if_pos h, ih, Property.visible_cons_of_nodoc ps h]
    · rw [renderedProperties, if_neg h, ih, Property.visible_cons_of_shown ps h, List.map_cons]

/-- What is rendered is not hidden, so it is all visible. -/
theorem visible_renderedProperties (ps : List (Property ApiType)) :
    Property.visible (renderedProperties ps) = renderedProperties ps := by
  rw [renderedProperties_eq_map]
  refine List.filter_eq_self.2 fun q hq => ?_
  obtain ⟨p, hp, rfl⟩ := List.mem_map.1 hq
  rw [toTraits_renderedInside]
  exact (List.mem_filter.1 hp).2

@[simp]
theorem isFunction_rendered (t : ApiType) : t.rendered.isFunction = t.isFunction := by
  cases t <;> rfl

@[simp]
theorem isAny_rendered (t : ApiType) : t.rendered.isAny = t.isAny := by
  cases t <;> rfl

/-! ### Lowering -/

theorem find?_rendered (path : String) (t : ApiType) :
    Replacement.find? path t.rendered = Replacement.find? path t := by
  refine Replacement.find?_congr ?_ (isAny_rendered t) path
  cases t with
  | reference target arguments =>
    rw [rendered, reference?, reference?, renderedItems_eq_map, List.isEmpty_map]
  | _ => rfl

variable {scope : List String}

/-- One type is lowered as another is, at every path and in every role: by itself, as a function
that is called, and as a completion callback. -/
structure LoweredAs (scope : List String) (t u : ApiType) : Prop where
  lower_eq : ∀ path, u.lower scope path = t.lower scope path
  callable_eq : ∀ path, u.lowerCallable? scope path = t.lowerCallable? scope path
  results_eq : ∀ path, u.lowerResults scope path = t.lowerResults scope path

/-- A property whose type is lowered alike is lowered alike. -/
theorem deferred_renderedInside {p : Property ApiType} (h : LoweredAs scope p.type p.type.rendered)
    (path : String) : (renderedInside p).deferred scope path = p.deferred scope path := by
  unfold Property.deferred
  rw [toTraits_renderedInside, name_renderedInside, type_renderedInside, h.lower_eq]

section

variable {ts : List ApiType} {ps : List (Property ApiType)} {o : Option (Property ApiType)}

theorem lowerItems_rendered (h : ∀ t ∈ ts, LoweredAs scope t t.rendered) (path : String) :
    lowerItems scope path (renderedItems ts) = lowerItems scope path ts := by
  rw [renderedItems_eq_map, lowerItems_eq_mapM, lowerItems_eq_mapM]
  exact mapM_map_eq fun t ht => (h t ht).lower_eq path

theorem lowerVisible_rendered (h : ∀ p ∈ ps, LoweredAs scope p.type p.type.rendered)
    (path : String) :
    lowerVisible scope path (renderedProperties ps) = lowerVisible scope path ps := by
  rw [lowerVisible_eq_map, visible_renderedProperties, renderedProperties_eq_map, List.map_map,
    lowerVisible_eq_map]
  refine List.map_congr_left fun p hp => ?_
  rw [Function.comp_apply, name_renderedInside,
    deferred_renderedInside (h p (Property.mem_of_mem_visible hp))]

theorem lowerPromised_rendered (h : ∀ p ∈ ps, LoweredAs scope p.type p.type.rendered)
    (path : String) :
    lowerPromised scope path (renderedProperties ps) = lowerPromised scope path ps := by
  rw [lowerPromised_eq_map, visible_renderedProperties, renderedProperties_eq_map, List.map_map,
    lowerPromised_eq_map]
  exact List.map_congr_left fun p hp =>
    deferred_renderedInside (h p (Property.mem_of_mem_visible hp)) path

theorem lowerResult_rendered (h : ∀ p ∈ o.toList, LoweredAs scope p.type p.type.rendered)
    (path : String) : lowerResult scope path (renderedOption o) = lowerResult scope path o := by
  cases o with
  | none => rfl
  | some p =>
    rw [lowerResult_eq_map, lowerResult_eq_map, renderedOption, Option.map_some, Option.map_some,
      name_renderedInside, deferred_renderedInside (h p (List.mem_singleton_self p))]

theorem lowerCompletion_rendered (h : ∀ p ∈ o.toList, LoweredAs scope p.type p.type.rendered)
    (path : String) (callbackOnly : Bool) :
    lowerCompletion scope path callbackOnly (renderedOption o) =
      lowerCompletion scope path callbackOnly o := by
  cases o with
  | none => rfl
  | some p =>
    have hp := h p (List.mem_singleton_self p)
    rw [lowerCompletion_eq_map, lowerCompletion_eq_map, renderedOption, Option.map_some,
      Option.map_some, name_renderedInside, type_renderedInside, deferred_renderedInside hp,
      hp.results_eq]

theorem lowerMembers_rendered (h : ∀ p ∈ ps, LoweredAs scope p.type p.type.rendered)
    (path : String) :
    lowerMembers scope path (renderedProperties ps) = lowerMembers scope path ps := by
  have hmember : ∀ p ∈ Property.visible ps,
      lowerMember scope path (renderedInside p) = lowerMember scope path p := by
    intro p hp
    have hp := h p (Property.mem_of_mem_visible hp)
    unfold lowerMember Traits.doc extraTags
    simp only [toTraits_renderedInside, name_renderedInside, type_renderedInside, hp.lower_eq,
      hp.callable_eq, isFunction_rendered]
  rw [lowerMembers_eq_mapM, visible_renderedProperties, renderedProperties_eq_map,
    mapM_map_eq hmember, lowerMembers_eq_mapM]

end

/-- What no replacement but a template parameter can take the place of is lowered as its copy is. -/
theorem lowerUnlessParameter_rendered {path : String} {t : ApiType} {otherwise otherwise' : Lowered}
    (h : otherwise' = otherwise) :
    lowerUnlessParameter scope path t.rendered otherwise' =
      lowerUnlessParameter scope path t otherwise := by
  unfold lowerUnlessParameter
  rw [find?_rendered, h]

/-- **A type and its copy are lowered alike**, in all roles. -/
theorem loweredAs_rendered (t : ApiType) : LoweredAs scope t t.rendered := by
  induction t using nesting_induction with
  | step t hparts hnested =>
    cases t with
    | primitive | literal | number => exact ⟨fun _ => rfl, fun _ => rfl, fun _ => rfl⟩
    | reference target arguments =>
      refine ⟨fun path => ?_, fun _ => rfl, fun _ => rfl⟩
      have hfind := find?_rendered path (.reference target arguments)
      rw [rendered] at hfind ⊢
      rw [lower, lower, hfind, @lowerItems_rendered scope arguments hparts]
    | sequence element min max =>
      refine ⟨fun path => ?_, fun _ => rfl, fun _ => rfl⟩
      have helement := hparts element (List.mem_singleton_self element)
      refine lowerUnlessParameter_rendered (t := .sequence element min max) ?_
      rw [helement.lower_eq]
    | object properties index templates instanceType =>
      refine ⟨fun path => ?_, fun _ => rfl, fun _ => rfl⟩
      refine lowerUnlessParameter_rendered (t := .object properties index templates instanceType) ?_
      rw [@lowerMembers_rendered scope properties hnested]
    | intersection items =>
      refine ⟨fun path => ?_, fun _ => rfl, fun _ => rfl⟩
      refine lowerUnlessParameter_rendered (t := .intersection items) ?_
      exact congrArg (Except.map TypeExpr.allOf) (lowerItems_rendered hparts path)
    | choices items =>
      refine ⟨fun path => ?_, fun _ => rfl, fun _ => rfl⟩
      refine lowerUnlessParameter_rendered (t := .choices items) ?_
      exact congrArg (Except.map TypeExpr.oneOf) (lowerItems_rendered hparts path)
    | function parameters returns completion callbackOnly =>
      have hparameters : ∀ p ∈ parameters, LoweredAs scope p.type p.type.rendered :=
        fun p hp => hnested p (List.mem_append_left _ (List.mem_append_left _ hp))
      have hreturns : ∀ p ∈ returns.toList, LoweredAs scope p.type p.type.rendered :=
        fun p hp => hnested p (List.mem_append_left _ (List.mem_append_right _ hp))
      have hcompletion : ∀ p ∈ completion.toList, LoweredAs scope p.type p.type.rendered :=
        fun p hp => hnested p (List.mem_append_right _ hp)
      have hcallable : ∀ path, lowerCallable? scope path
          (.function parameters returns completion callbackOnly : ApiType).rendered =
            lowerCallable? scope path (.function parameters returns completion callbackOnly) := by
        intro path
        rw [rendered, lowerCallable?, lowerCallable?, lowerVisible_rendered hparameters,
          lowerResult_rendered hreturns, lowerCompletion_rendered hcompletion]
      refine ⟨fun path => ?_, hcallable, fun path => ?_⟩
      · refine lowerUnlessParameter_rendered
          (t := .function parameters returns completion callbackOnly) ?_
        exact congrArg (Callable.functionType · path) (Option.some.inj (hcallable path))
      · rw [rendered, lowerResults, lowerResults, lowerPromised_rendered hparameters]

end ApiType

/-! ### Hidden callbacks -/

namespace ApiType

/-- The completion callback of a function. -/
def completion? : ApiType → Option (Property ApiType)
  | .function _ _ completion _ => completion
  | _ => none

/-- On the way through what is shown, results included, a hidden completion callback is met. -/
inductive HidesCallback : ApiType → Prop
  | callback {t : ApiType} {p : Property ApiType} (hp : p ∈ t.completion?)
      (hidden : p.nodoc = true) : HidesCallback t
  | part {t a : ApiType} (ha : a ∈ t.parts) (h : HidesCallback a) : HidesCallback t
  | declared {t : ApiType} {p : Property ApiType} (hp : p ∈ t.declared) (hshown : p.nodoc = false)
      (h : HidesCallback p.type) : HidesCallback t
  | result {t : ApiType} {p : Property ApiType} (hp : p ∈ t.results) (h : HidesCallback p.type) :
      HidesCallback t

variable {ps : List (Property ApiType)}

theorem visibleInside_eq_renderedInside_iff {p : Property ApiType} :
    visibleInside p = renderedInside p ↔ p.type.visible = p.type.rendered := by
  obtain ⟨traits, name, type⟩ := p
  rw [visibleInside, renderedInside, Property.mk.injEq]
  exact ⟨fun h => h.2.2, fun h => ⟨rfl, rfl, h⟩⟩

theorem visibleItems_eq_renderedItems_iff {ts : List ApiType} :
    visibleItems ts = renderedItems ts ↔ ∀ t ∈ ts, t.visible = t.rendered := by
  rw [visibleItems_eq_map, renderedItems_eq_map, List.map_inj_left]

theorem visibleProperties_eq_renderedProperties_iff :
    visibleProperties ps = renderedProperties ps ↔
      ∀ p ∈ ps, p.nodoc = false → p.type.visible = p.type.rendered := by
  rw [visibleProperties_eq_map, renderedProperties_eq_map, List.map_inj_left]
  simp only [visibleInside_eq_renderedInside_iff, Property.visible, List.mem_filter,
    Bool.not_eq_true', and_imp]

theorem visibleResult_eq_renderedOption_iff {o : Option (Property ApiType)} :
    visibleResult o = renderedOption o ↔ ∀ p ∈ o, p.type.visible = p.type.rendered := by
  cases o with
  | none => simp [visibleResult, renderedOption]
  | some p => simp [visibleResult, renderedOption, visibleInside_eq_renderedInside_iff]

theorem visibleCallback_eq_renderedOption_iff {o : Option (Property ApiType)} :
    visibleCallback o = renderedOption o ↔
      ∀ p ∈ o, p.nodoc = false ∧ p.type.visible = p.type.rendered := by
  cases o with
  | none => simp [visibleCallback, renderedOption]
  | some p =>
    cases h : p.nodoc <;>
      simp [visibleCallback, renderedOption, visibleInside_eq_renderedInside_iff, h]

/-- The copies of a type are equal if those of what it is made of are, and its callback is shown. -/
theorem visible_eq_rendered_iff_forall (t : ApiType) :
    t.visible = t.rendered ↔
      (∀ a ∈ t.parts, a.visible = a.rendered) ∧
      (∀ p ∈ t.declared, p.nodoc = false → p.type.visible = p.type.rendered) ∧
      (∀ p ∈ t.results, p.type.visible = p.type.rendered) ∧
      ∀ p ∈ t.completion?, p.nodoc = false := by
  cases t with
  | primitive | literal | number => simp [visible, rendered, parts, declared, results, completion?]
  | reference | intersection | choices =>
    simp [visible, rendered, parts, declared, results, completion?,
      visibleItems_eq_renderedItems_iff]
  | sequence => simp [visible, rendered, parts, declared, results, completion?]
  | object =>
    simp [visible, rendered, parts, declared, results, completion?,
      visibleProperties_eq_renderedProperties_iff]
  | function parameters returns completion callbackOnly =>
    simp only [visible, rendered, parts, declared, results, completion?, function.injEq, and_true,
      visibleProperties_eq_renderedProperties_iff, visibleResult_eq_renderedOption_iff,
      visibleCallback_eq_renderedOption_iff, List.not_mem_nil, false_imp_iff, implies_true,
      true_and, List.forall_mem_append, Option.mem_toList, forall_and]
    constructor
    · rintro ⟨hparameters, hreturns, hshown, hcallback⟩
      exact ⟨⟨hparameters, fun p hp _ => hcallback p hp⟩, hreturns, hshown⟩
    · rintro ⟨⟨hparameters, hcallback⟩, hreturns, hshown⟩
      exact ⟨hparameters, hreturns, hshown, fun p hp => hcallback p hp (hshown p hp)⟩

/-- **The two copies differ** exactly if a hidden callback is met. -/
theorem visible_eq_rendered_iff (t : ApiType) : t.visible = t.rendered ↔ ¬t.HidesCallback := by
  induction t using nesting_induction with
  | step t hparts hnested =>
    rw [visible_eq_rendered_iff_forall]
    constructor
    · rintro ⟨hp, hd, hr, hc⟩ h
      cases h with
      | callback hmem hidden => exact Bool.false_ne_true ((hc _ hmem).symm.trans hidden)
      | part ha h => exact (hparts _ ha).1 (hp _ ha) h
      | declared hmem hshown h =>
        exact (hnested _ (mem_nested_of_declared hmem)).1 (hd _ hmem hshown) h
      | result hmem h => exact (hnested _ (mem_nested_of_results hmem)).1 (hr _ hmem) h
    · intro hnot
      refine ⟨fun a ha => ?_, fun p hp hshown => ?_, fun p hp => ?_, fun p hp => ?_⟩
      · exact (hparts a ha).2 fun h => hnot (.part ha h)
      · exact (hnested p (mem_nested_of_declared hp)).2 fun h => hnot (.declared hp hshown h)
      · exact (hnested p (mem_nested_of_results hp)).2 fun h => hnot (.result hp h)
      · exact Bool.of_not_eq_true fun hidden => hnot (.callback hp hidden)

end ApiType

end ApiTypings
