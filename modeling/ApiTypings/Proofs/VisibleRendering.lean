import ApiTypings.Proofs.VisibleCopy
import ApiTypings.Proofs.StableOrder
/-!
# Rendering a copy without what is hidden

Every declaration of a copy is the declaration of the original: types, values and functions one by
one, then the groups of members, and then namespaces in their order. The copy meant is
`Namespace.rendered`; `Renderer.render_copies` says what this means for `Namespace.visible`.
-/

namespace ApiTypings

/-! ### Declaring -/

namespace Namespace

/-- The namespace without its hidden members, but with every completion callback. -/
def rendered (ns : Namespace) : Namespace :=
  if ns.nodoc then { ns with members := [] }
  else { ns with members := ApiType.renderedProperties ns.members }

theorem name_rendered (ns : Namespace) : ns.rendered.name = ns.name := by
  unfold rendered
  split <;> rfl

theorem hasVisibleMembers_rendered (ns : Namespace) :
    ns.rendered.hasVisibleMembers = ns.hasVisibleMembers := by
  unfold rendered hasVisibleMembers
  split
  next h => simp [h]
  next h =>
    rw [ApiType.renderedProperties_eq_map, List.any_map, Property.visible, List.any_filter]
    simp

end Namespace

open ApiType

theorem announceMembers_rendered (path : String) (ps : List (Property ApiType)) :
    announceMembers path (renderedProperties ps) = announceMembers path ps := by
  unfold announceMembers
  rw [visible_renderedProperties, renderedProperties_eq_map, List.forM_eq_forM, List.forM_map]
  refine congrArg (forM _) (funext fun p => ?_)
  unfold memberKind
  rw [toTraits_renderedInside, name_renderedInside, type_renderedInside, isFunction_rendered]

theorem doc_rendered (traits : Traits) (t : ApiType) (path : String) :
    traits.doc t.rendered path = traits.doc t path := by
  unfold Traits.doc extraTags
  rw [isFunction_rendered]

theorem declareScopedType_rendered (p : Property ApiType) (path : String)
    (templates : Option String) :
    declareScopedType (renderedInside p) path templates = declareScopedType p path templates := by
  obtain ⟨traits, name, type⟩ := p
  unfold declareScopedType
  refine congrArg (Announcing.scope >>= ·) (funext fun scope => ?_)
  have hdoc := doc_rendered traits type path
  have hlower := (@loweredAs_rendered scope type).lower_eq path
  cases type with
  | object properties index templates' instanceType =>
    have hmembers : lowerObject scope path (renderedProperties properties) index =
        lowerObject scope path properties index := by
      unfold lowerObject
      rw [lowerMembers_rendered fun p _ => loweredAs_rendered p.type]
    rw [rendered] at hdoc
    simp only [renderedInside, rendered, hmembers, hdoc, announceMembers_rendered]
  | _ =>
    rw [rendered] at hdoc hlower
    simp only [renderedInside, rendered, hdoc, hlower]

theorem declareType_rendered (ns : String) (p : Property ApiType) :
    declareType ns (renderedInside p) = declareType ns p := by
  have htemplates : ∀ path, templatesOf? path p.type.rendered = templatesOf? path p.type := by
    intro path
    cases p.type <;> rfl
  unfold declareType
  simp only [name_renderedInside, type_renderedInside, htemplates, declareScopedType_rendered]

theorem valueDeclaration_rendered (scope : List String) (p : Property ApiType) (path : String) :
    valueDeclaration scope (renderedInside p) path = valueDeclaration scope p path := by
  obtain ⟨traits, name, type⟩ := p
  have hlower := (@loweredAs_rendered scope type).lower_eq path
  unfold valueDeclaration
  cases type with
  | literal value => rfl
  | _ =>
    rw [rendered] at hlower
    simp only [renderedInside, rendered, hlower]
    rfl

theorem declareValue_rendered (ns : String) (p : Property ApiType) :
    declareValue ns (renderedInside p) = declareValue ns p := by
  unfold declareValue
  simp only [name_renderedInside, toTraits_renderedInside, type_renderedInside, doc_rendered,
    valueDeclaration_rendered]

theorem declareOverloads_rendered (p : Property ApiType) (path : String) (first : Bool)
    (signatures : List (Signature Deferred)) :
    declareOverloads (renderedInside p) path first signatures =
      declareOverloads p path first signatures := by
  induction signatures generalizing first with
  | nil => rfl
  | cons s rest ih =>
    unfold declareOverloads
    simp only [ih, name_renderedInside, toTraits_renderedInside, type_renderedInside, doc_rendered]

theorem declareFunction_rendered (ns : String) (p : Property ApiType) :
    declareFunction ns (renderedInside p) = declareFunction ns p := by
  unfold declareFunction
  simp only [name_renderedInside, type_renderedInside, (loweredAs_rendered _).callable_eq,
    declareOverloads_rendered]

/-! ### Namespaces -/

/-- The groups of rendered members are the members of the groups, rendered. -/
theorem memberGroups_rendered (sorted : Bool) (ps : List (Property ApiType)) :
    memberGroups sorted (renderedProperties ps) =
      ((memberGroups sorted ps).1.map renderedInside, (memberGroups sorted ps).2.1.map renderedInside,
        (memberGroups sorted ps).2.2.map renderedInside) := by
  have hvisible : Property.visible (renderedProperties ps) =
      (Property.visible ps).map renderedInside := by
    rw [visible_renderedProperties, renderedProperties_eq_map]
  refine memberGroups_map name_renderedInside
    (fun p => congrArg Traits.isType (toTraits_renderedInside p)) (fun p => ?_) hvisible sorted
  rw [type_renderedInside, isFunction_rendered]

/-- **A namespace that is not hidden is declared as its copy is.** -/
theorem declareNamespace_rendered (options : RenderOptions) {ns : Namespace}
    (h : ns.nodoc = false) :
    declareNamespace options ns.rendered = declareNamespace options ns := by
  unfold Namespace.rendered
  rw [if_neg (h ▸ Bool.false_ne_true)]
  have htypes := fun ps : List (Property ApiType) =>
    mapM_map_eq fun p (_ : p ∈ ps) => declareType_rendered ns.name p
  have hvalues := fun ps : List (Property ApiType) =>
    mapM_map_eq fun p (_ : p ∈ ps) => declareValue_rendered ns.name p
  have hfunctions := fun ps : List (Property ApiType) =>
    mapM_map_eq fun p (_ : p ∈ ps) => declareFunction_rendered ns.name p
  -- The aliases of a block are made of the names of its members.
  have hnames : ∀ ps : List (Property ApiType),
      (ps.map renderedInside).map (fun p => p.name) = ps.map fun p => p.name := by
    intro ps
    rw [List.map_map]
    exact List.map_congr_left fun p _ => name_renderedInside p
  unfold declareNamespace declareMembers
  simp only [memberGroups_rendered, htypes, hvalues, hfunctions, List.map_append, hnames]

theorem visibleNamespaces_rendered (namespaces : List Namespace) :
    visibleNamespaces (namespaces.map Namespace.rendered) =
      (visibleNamespaces namespaces).map Namespace.rendered :=
  visibleNamespaces_map Namespace.name_rendered Namespace.hasVisibleMembers_rendered namespaces

theorem nodoc_of_mem_visibleNamespaces {namespaces : List Namespace} {ns : Namespace}
    (h : ns ∈ visibleNamespaces namespaces) : ns.nodoc = false := by
  have hvisible := (List.mem_filter.1 (List.mem_mergeSort.1 h)).2
  rw [Namespace.hasVisibleMembers, Bool.and_eq_true, Bool.not_eq_true'] at hvisible
  exact hvisible.1

/-- **Namespaces are declared as their copies are.** -/
theorem declareNamespaces_rendered (options : RenderOptions) (namespaces : List Namespace) :
    declareNamespaces options (namespaces.map Namespace.rendered) =
      declareNamespaces options namespaces := by
  have hnamespace : ∀ ns ∈ visibleNamespaces namespaces,
      declareNamespace options ns.rendered = declareNamespace options ns :=
    fun ns hns => declareNamespace_rendered options (nodoc_of_mem_visibleNamespaces hns)
  have hnames : ∀ nss : List Namespace,
      (nss.map Namespace.rendered).map (fun ns => ns.name) = nss.map fun ns => ns.name := by
    intro nss
    rw [List.map_map]
    exact List.map_congr_left fun ns _ => ns.name_rendered
  unfold declareNamespaces
  simp only [visibleNamespaces_rendered, mapM_map_eq hnamespace, hnames]

namespace Namespace

/-- In a namespace that is not hidden a hidden completion callback is met. -/
def HidesCallback (ns : Namespace) : Prop :=
  ns.nodoc = false ∧ ns.body.HidesCallback

/-- The copies of a namespace are equal exactly if no hidden callback is met. -/
theorem visible_eq_rendered_iff (ns : Namespace) : ns.visible = ns.rendered ↔ ¬ns.HidesCallback := by
  obtain ⟨name, members, description, deprecated, nodoc, feature, availability⟩ := ns
  unfold visible rendered HidesCallback
  cases nodoc with
  | true => simp
  | false =>
    have hbody := ApiType.visible_eq_rendered_iff (.object members none none none)
    rw [ApiType.visible, ApiType.rendered] at hbody
    simp only [ApiType.object.injEq, and_true] at hbody
    simp only [Bool.false_eq_true, if_false, true_and, Namespace.mk.injEq, and_true]
    exact hbody

end Namespace

namespace Renderer

/-- **Rendering passes over what is hidden, but for completion callbacks.**

* Whatever is hidden in namespaces, rendering them is the same as rendering their copies without
  what is hidden but with every completion callback: the text or the error, the symbols, and what is
  left for the next rendering.
* Such a copy is the visible one unless a hidden callback is met on the way through what is shown.
* So if none is met, rendering the visible copies is the same. -/
theorem render_copies (r : Renderer) (namespaces : List Namespace) :
    r.render (namespaces.map Namespace.rendered) = r.render namespaces ∧
    (∀ ns ∈ namespaces, ns.visible = ns.rendered ↔ ¬ns.HidesCallback) ∧
    ((∀ ns ∈ namespaces, ¬ns.HidesCallback) →
      r.render (namespaces.map Namespace.visible) = r.render namespaces) := by
  have hrendered : r.render (namespaces.map Namespace.rendered) = r.render namespaces := by
    unfold render
    rw [declareNamespaces_rendered]
  refine ⟨hrendered, fun ns _ => ns.visible_eq_rendered_iff, fun hnone => ?_⟩
  have hcopies : namespaces.map Namespace.visible = namespaces.map Namespace.rendered :=
    List.map_congr_left fun ns hns => ns.visible_eq_rendered_iff.2 (hnone ns hns)
  rw [hcopies, hrendered]

/-- A namespace in which a member is hidden, a parameter of a callback and a property of a result. -/
def hiddenParts : Namespace where
  name := "a"
  members := [{ nodoc := true, name := "secret", type := .primitive .string },
    .plain "f" (.function [] none (some (.plain "callback" (.function
      [{ nodoc := true, name := "key", type := .primitive .string },
        .plain "found" (.object [{ nodoc := true, name := "id", type := .primitive .string },
          .plain "title" (.primitive .string)] none none none)] none none false))) false)]

/-- No callback is hidden, so the visible copy is rendered alike, although it is smaller. -/
theorem render_hiddenParts :
    (∀ ns ∈ [hiddenParts], ¬ns.HidesCallback) ∧
      render {} [hiddenParts.visible] = render {} [hiddenParts] ∧
      hiddenParts.visible.members.length < hiddenParts.members.length := by
  have hnone : ∀ ns ∈ [hiddenParts], ¬ns.HidesCallback :=
    List.forall_mem_singleton.2 (hiddenParts.visible_eq_rendered_iff.1 rfl)
  exact ⟨hnone, (render_copies {} [hiddenParts]).2.2 hnone, by decide⟩

/-- A function whose completion callback is hidden. -/
def hiddenCallback : Namespace where
  name := "a"
  members := [.plain "f" (.function [] none
    (some { nodoc := true, name := "callback", type := .function [] none none false }) false)]

/-- The function is rendered as an asynchronous one, and its visible copy as one that is not. -/
theorem render_hiddenCallback :
    (render {} [hiddenCallback]).text ≠ (render {} [hiddenCallback.visible]).text := by
  decide +kernel

end Renderer

end ApiTypings
