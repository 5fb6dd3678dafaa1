import ApiTypings.Proofs.ParameterLists
import ApiTypings.Proofs.SchemaTypes
/-!
# Names that stay apart

A member of a namespace is declared under its name, or under the alias of a name that cannot be
declared. A parameter is named by an identifier made from its name. So names that are different in a
schema may come out the same, but in few ways:

* A name is mistaken for another one only if this is its alias (`Clash`, `escape_eq_escape_iff`).
* The names of parameters that are no identifiers may be made the same identifier
  (`parameterName_eq_iff`).

Main statement: these are the only ways in which the names of members that are declared side by
side, or of parameters of one list, can coincide in a rendering (`Renderer.render_names`).
-/

namespace ApiTypings

/-! ### Aliases -/

/-- One of two names can only be declared under an alias, and the other one is this alias. -/
def Clash (a b : String) : Prop :=
  (needsEscape a = true ∧ b = "_" ++ a) ∨ (needsEscape b = true ∧ a = "_" ++ b)

/-- An alias can be declared. -/
theorem needsEscape_alias (name : String) : needsEscape ("_" ++ name) = false := by
  have hchars : ("_" ++ name).toList = '_' :: name.toList := by simp
  have hreserved : ("_" ++ name) ∉ reservedWords := by
    intro hmem
    have hfirst : ∀ word ∈ reservedWords, word.toList.head? ≠ some '_' := by decide
    exact hfirst _ hmem (by rw [hchars]; rfl)
  have hdigit : startsWithDigit ("_" ++ name) = false := by
    rw [startsWithDigit, hchars]
    rfl
  simp [needsEscape, isReserved, hreserved, hdigit]

/-- **Two names are declared as the same** only if they are the same or clash. -/
theorem escape_eq_escape_iff {a b : String} : escape a = escape b ↔ a = b ∨ Clash a b := by
  unfold escape Clash
  by_cases ha : needsEscape a = true
  · by_cases hb : needsEscape b = true
    · -- Neither can be the alias of the other, which could be declared.
      have hba : b ≠ "_" ++ a := fun h => by simp [h, needsEscape_alias] at hb
      have hab : a ≠ "_" ++ b := fun h => by simp [h, needsEscape_alias] at ha
      simp [ha, hb, hab, hba]
    · have hne : a ≠ b := fun h => hb (h ▸ ha)
      simp [ha, hb, hne, eq_comm]
  · by_cases hb : needsEscape b = true
    · have hne : a ≠ b := fun h => ha (h ▸ hb)
      simp [ha, hb, hne]
    · simp [ha, hb]

/-- The identifier that the name of a parameter is made from. -/
def identifierOf (name : String) : String :=
  if isIdentifier name then name else cleanedName name

theorem parameterName_eq_escape (name : String) :
    parameterName name = escape (identifierOf name) := by
  unfold parameterName identifierOf
  split <;> rfl

/-- The names of two parameters are made the same identifier, or identifiers that clash. -/
def ParameterClash (x y : String) : Prop :=
  identifierOf x = identifierOf y ∨ Clash (identifierOf x) (identifierOf y)

/-- **Two parameters have the same name** only if their names in the schema clash. -/
theorem parameterName_eq_iff {x y : String} :
    parameterName x = parameterName y ↔ ParameterClash x y := by
  rw [parameterName_eq_escape, parameterName_eq_escape, escape_eq_escape_iff, ParameterClash]

/-! ### Members -/

/-- The name that is declared. -/
def Declaration.name : Declaration → String
  | typeAlias name _ _ => name
  | interfaceType name _ _ => name
  | classType name _ _ _ => name
  | constant name _ => name
  | typedConstant name _ => name
  | letVariable name _ => name
  | function name _ _ => name

/-- There are declarations, and all of them declare this name. -/
def Statement.AllDeclare (name : String) (paragraph : List Statement) : Prop :=
  paragraph ≠ [] ∧ ∀ s ∈ paragraph, s.declaration.name = name

theorem Statement.allDeclare_singleton {name : String} {s : Statement}
    (h : s.declaration.name = name) : AllDeclare name [s] :=
  ⟨List.cons_ne_nil _ _, List.forall_mem_singleton.2 h⟩

open Announcing Statement

section

variable {p : Property ApiType} {ns : String}

theorem name_declareType (ns : String) (p : Property ApiType) :
    Yields (declareType ns p) (AllDeclare (escape p.name)) := by
  refine Yields.withScope (Yields.of_bind fun scope => ?_)
  dsimp only
  split
  · next instanceType _ =>
    refine Yields.of_bind fun _ => Yields.of_bind fun _ => Yields.of_bind fun _ => yields_pure ?_
    refine allDeclare_singleton ?_
    cases instanceType.isSome <;> rfl
  · refine Yields.of_bind fun _ => Yields.of_bind fun _ => yields_pure ?_
    exact allDeclare_singleton rfl

theorem name_valueDeclaration {scope : List String} {path : String} :
    ∀ value, valueDeclaration scope p path = .ok value → value.2.name = escape p.name := by
  intro value h
  unfold valueDeclaration at h
  split at h
  · cases h
    rfl
  · obtain ⟨type, -, h⟩ := bind_eq_ok_iff.1 h
    split_ifs at h <;> cases h <;> rfl

theorem name_declareValue (ns : String) (p : Property ApiType) :
    Yields (declareValue ns p) (AllDeclare (escape p.name)) := by
  refine Yields.of_bind fun scope => ?_
  refine (yields_lift name_valueDeclaration).bind fun value hvalue => ?_
  exact Yields.of_bind fun _ => yields_pure (allDeclare_singleton hvalue)

/-- There is a declaration for every overload. -/
theorem name_declareOverloads (p : Property ApiType) (path : String) (first : Bool)
    (signatures : List (Signature Deferred)) :
    Yields (declareOverloads p path first signatures) fun statements =>
      statements.length = signatures.length ∧
        ∀ s ∈ statements, s.declaration.name = escape p.name := by
  induction signatures generalizing first with
  | nil => exact yields_pure ⟨rfl, List.forall_mem_nil _⟩
  | cons s rest ih =>
    unfold declareOverloads
    refine Yields.of_bind fun _ => Yields.of_bind fun _ => Yields.of_bind fun _ => ?_
    refine (ih false).bind_pure fun statements hstatements => ?_
    obtain ⟨hlength, hnames⟩ := hstatements
    exact ⟨congrArg (· + 1) hlength, List.forall_mem_cons.2 ⟨rfl, hnames⟩⟩

theorem name_declareFunction (hp : p.type.isFunction = true) (ns : String) :
    Yields (declareFunction ns p) (AllDeclare (escape p.name)) := by
  refine Yields.of_bind fun scope => ?_
  split
  · next hnone =>
    -- A function type is always lowered to a function.
    cases htype : p.type <;> rw [htype] at hp hnone <;> cases hp
    cases hnone
  · next c hc =>
    have hne : Yields (lift (c.loweredSignatures (member ns p.name))) (· ≠ []) :=
      yields_lift fun signatures h => Callable.loweredSignatures_ne_nil h
    refine hne.bind fun signatures hsignatures => ?_
    refine (name_declareOverloads p _ true signatures).bind fun statements hstatements => ?_
    obtain ⟨hlength, hnames⟩ := hstatements
    refine Yields.of_bind fun _ => yields_pure ⟨?_, hnames⟩
    rw [← List.length_pos_iff, hlength, List.length_pos_iff]
    exact hsignatures

end

/-- **A namespace declares its visible members**, each in a paragraph of its own. -/
theorem name_declareNamespace (options : RenderOptions) (ns : Namespace) :
    Yields (declareNamespace options ns) fun b => ∃ members,
      members.Perm (Property.visible ns.members) ∧
        List.Forall₂ (fun p paragraph => AllDeclare (escape p.name) paragraph) members
          b.paragraphs := by
  unfold declareNamespace declareMembers
  refine Yields.of_bind fun _ => ?_
  dsimp only
  refine (Yields.forall₂_mapM fun p _ => name_declareType ns.name p).bind fun types htypes => ?_
  refine (Yields.forall₂_mapM fun p _ => name_declareValue ns.name p).bind fun values hvalues => ?_
  refine (Yields.forall₂_mapM fun p hp =>
    name_declareFunction ((mem_memberGroups _ _).2.2 p hp).2 ns.name).bind_pure
      fun functions hfunctions => ?_
  exact ⟨_, memberGroups_perm options.sortMembers ns.members,
    List.rel_append (List.rel_append htypes hvalues) hfunctions⟩

/-! ### Parameters -/

/-- The parameters are named after some of these names, in their order. Two of them have the same
name exactly if the names that they are named after clash. -/
def NamedAfter (names : List String) (ps : List (Parameter TypeExpr)) : Prop :=
  ∃ kept, kept.Sublist names ∧ List.Forall₂ (fun p x => p.name = parameterName x) ps kept ∧
    ∀ x ∈ kept, ∀ y ∈ kept, parameterName x = parameterName y ↔ ParameterClash x y

theorem namedAfter_of_sublist {names kept : List String} (hkept : kept.Sublist names)
    {ps : List (Parameter TypeExpr)}
    (h : List.Forall₂ (fun p x => p.name = parameterName x) ps kept) : NamedAfter names ps :=
  ⟨kept, hkept, h, fun _ _ _ _ => parameterName_eq_iff⟩

theorem Property.names_of_mem_omissions {τ : Type} {ps kept : List (Property τ)}
    (h : kept ∈ omissions ps) : (kept.map (·.name)).Sublist (ps.map (·.name)) := by
  induction ps generalizing kept with
  | nil =>
    rw [List.mem_singleton.1 h]
  | cons p ps ih =>
    rw [omissions] at h
    split at h
    · obtain ⟨rest, hrest, h⟩ := List.mem_flatMap.1 h
      rcases List.mem_cons.1 h with rfl | h
      · exact (ih hrest).cons_cons p.name
      · rw [List.mem_singleton.1 h]
        exact (ih hrest).cons p.name
    · obtain ⟨rest, hrest, rfl⟩ := List.mem_map.1 h
      exact (ih hrest).cons_cons p.name

theorem name_toParameter {p : Property Deferred} {q : Parameter TypeExpr}
    (h : p.toParameter = .ok q) : q.name = parameterName p.name := by
  obtain ⟨type, -, h⟩ := bind_eq_ok_iff.1 h
  cases h
  rfl

theorem names_of_mapM_toParameter {ps : List (Property Deferred)} {qs : List (Parameter TypeExpr)}
    (h : ps.mapM Property.toParameter = .ok qs) :
    List.Forall₂ (fun q x => q.name = parameterName x) qs (ps.map (·.name)) := by
  rw [List.forall₂_map_right_iff]
  exact (mapM_eq_ok_iff.1 h).flip.imp fun _ _ => name_toParameter

theorem names_of_arrowParameters {ps : List (Property Deferred)} {qs : List (Parameter TypeExpr)}
    (h : arrowParameters ps = .ok qs) :
    List.Forall₂ (fun q x => q.name = parameterName x) qs (ps.map (·.name)) := by
  induction ps generalizing qs with
  | nil =>
    cases h
    exact .nil
  | cons p rest ih =>
    obtain ⟨q, hq, h⟩ := bind_eq_ok_iff.1 h
    obtain ⟨qs', hqs', h⟩ := bind_eq_ok_iff.1 h
    cases h
    have hname : q.name = parameterName p.name := name_toParameter hq
    refine .cons ?_ (ih hqs')
    split <;> exact hname

/-- The names of the visible parameters of a function, and of its completion callback. -/
def Callable.argumentNames {τ : Type} (c : Callable τ) : List String :=
  c.parameters.map (·.name) ++ c.completion.toList.map (·.callback.name)

/-- **A function is written with parameters that are named after its own.** -/
theorem Callable.makes_namedAfter (c : Callable Deferred) :
    c.Makes (NamedAfter c.argumentNames) where
  arrow _ h := namedAfter_of_sublist (List.sublist_append_left _ _) (names_of_arrowParameters h)
  overload path signatures h s hs ps hps := by
    refine namedAfter_of_sublist ?_ (names_of_mapM_toParameter hps)
    rcases (Callable.expanded_of_expand h).parameters_mem hs with hkept | ⟨completion, hmem, hkept⟩
    · exact (Property.names_of_mem_omissions hkept).trans (List.sublist_append_left _ _)
    · have hcompletion : c.completion = some completion := hmem
      have hnames := Property.names_of_mem_omissions hkept
      rw [List.map_append] at hnames
      rw [argumentNames, hcompletion]
      exact hnames

namespace ApiType

/-- The names of the visible parameters of a function type, and of its completion callback. -/
def argumentNames : ApiType → List String
  | .function parameters _ completion _ =>
    (Property.visible parameters).map (·.name) ++ completion.toList.map (·.name)
  | _ => []

theorem argumentNames_of_lowerCallable? {t : ApiType} {scope : List String} {path : String}
    {c : Callable Deferred} (h : t.lowerCallable? scope path = some c) :
    c.argumentNames = t.argumentNames := by
  cases t with
  | function parameters returns completion callbackOnly =>
    cases h
    rw [Callable.argumentNames, argumentNames, lowerVisible_eq_map, lowerCompletion_eq_map,
      List.map_map]
    cases completion <;> rfl
  | _ => cases h

end ApiType

/-! ### Namespaces that are parsed -/

/-- The members of a namespace that is parsed have different names. -/
theorem NamespaceNode.nodup_parse (n : NamespaceNode) :
    Gives n.parse fun ns => (ns.members.map (·.name)).Nodup :=
  n.members_parse (I := fun members => (members.map (·.name)).Nodup) List.nodup_nil
    fun _ _ _ hmembers _ => nodup_addMember hmembers

namespace Namespace

/-- Pruning leaves some of the members, in their order and under their names. -/
theorem names_prune {ns n : Namespace} {r : Resolver} (h : ns.prune r = .ok n) :
    (n.members.map (·.name)).Sublist (ns.members.map (·.name)) := by
  obtain ⟨answer, -, ⟨annotated, ha, hvisible⟩, -⟩ := exists_prunes_body h
  have hannotated : annotated.declared.map (·.name) = ns.members.map (·.name) := by
    refine map_eq_of_forall₂ (ApiType.declared_annotate ha) fun p _ p' hp' => ?_
    obtain ⟨v, type, -, -, rfl⟩ := ApiType.annotateProperty_eq_ok_iff.1 hp'
    rfl
  have hmembers : n.members = (Property.visible annotated.declared).map ApiType.visibleInside := by
    rw [← ApiType.declared_visible, hvisible]
    rfl
  rw [← hannotated, hmembers, List.map_map]
  have hname : (fun p : Property ApiType => p.name) ∘ ApiType.visibleInside = (·.name) :=
    funext ApiType.name_visibleInside
  rw [hname]
  exact List.filter_sublist.map _

/-- A namespace that was parsed, or what pruning leaves of one. -/
def Parsed (ns : Namespace) : Prop :=
  ∃ (n : NamespaceNode) (parsed : Namespace), n.parse = .ok parsed ∧
    (ns = parsed ∨ ∃ r, parsed.prune r = .ok ns)

theorem Parsed.nodup {ns : Namespace} (h : ns.Parsed) : (ns.members.map (·.name)).Nodup := by
  obtain ⟨n, parsed, hparse, rfl | ⟨r, hprune⟩⟩ := h
  · exact n.nodup_parse _ hparse
  · exact (n.nodup_parse _ hparse).sublist (names_prune hprune)

end Namespace

/-! ### Documents -/

/-- A block declares the visible members of a namespace, each in a paragraph of its own. Two members
are declared under the same name exactly if their names clash. -/
def Block.DeclaresMembers (ns : Namespace) (b : Block) : Prop :=
  ∃ members, members.Perm (Property.visible ns.members) ∧
    List.Forall₂ (fun p paragraph => AllDeclare (escape p.name) paragraph) members b.paragraphs ∧
      members.Pairwise fun p q => escape p.name = escape q.name ↔ Clash p.name q.name

/-- A namespace that was parsed is declared so. -/
theorem declaresMembers_of_parsed {ns : Namespace} (hparsed : ns.Parsed) (options : RenderOptions) :
    Yields (declareNamespace options ns) (Block.DeclaresMembers ns) := by
  intro s b hb
  obtain ⟨members, hperm, hnames⟩ := name_declareNamespace options ns s b hb
  refine ⟨members, hperm, hnames, ?_⟩
  have hvisible : ((Property.visible ns.members).map (·.name)).Nodup :=
    hparsed.nodup.sublist (List.filter_sublist.map _)
  have hnodup : (members.map (·.name)).Nodup := (hperm.map _).nodup_iff.2 hvisible
  refine (List.pairwise_map.1 hnodup).imp fun hne => ?_
  rw [escape_eq_escape_iff, or_iff_right hne]

/-- These are the parameters of a constructor, or they are named after the parameters and the
callback of a function that is met in a visible member of one of the namespaces. -/
def NamedInside (namespaces : List Namespace) (ps : List (Parameter TypeExpr)) : Prop :=
  (∃ type, ps = [⟨"arg", false, type⟩]) ∨
    ∃ ns ∈ visibleNamespaces namespaces, ∃ p ∈ Property.visible ns.members,
      ∃ f : ApiType, f.Inside p.type ∧ NamedAfter f.argumentNames ps

theorem calls_namedInside {namespaces : List Namespace} {ns : Namespace}
    (hns : ns ∈ visibleNamespaces namespaces) {p : Property ApiType}
    (hp : p ∈ Property.visible ns.members) : p.type.Calls (NamedInside namespaces) := by
  intro f hf scope path c hc
  have hnamed : ∀ ps, NamedAfter c.argumentNames ps → NamedInside namespaces ps := by
    intro ps hps
    rw [ApiType.argumentNames_of_lowerCallable? hc] at hps
    exact .inr ⟨ns, hns, p, hp, f, hf, hps⟩
  have hmakes := c.makes_namedAfter
  exact {
    arrow := fun ps hps => hnamed ps (hmakes.arrow ps hps)
    overload := fun path signatures h s hs ps hps =>
      hnamed ps (hmakes.overload path signatures h s hs ps hps) }

theorem namedInside_of_mem_parameterLists {options : RenderOptions} {namespaces : List Namespace}
    {state : RendererState} {document : Document}
    (h : (declareNamespaces options namespaces state).result = .ok document) :
    ∀ ps ∈ document.parameterLists, NamedInside namespaces ps :=
  Document.forall_parameterLists (fun type => .inl ⟨type, rfl⟩)
    (fun _ hns _ hp => calls_namedInside hns hp) h

namespace Renderer

/-- **Names stay apart, but for clashes.** Whenever namespaces that were parsed render, every one of
them that has anything to declare has a block in the document, in which two of its visible members
are declared under the same name exactly if their names clash. In every parameter list of the
document, two parameters have the same name exactly if the names in the schema clash that they are
named after. -/
theorem render_names {r : Renderer} {namespaces : List Namespace}
    (hparsed : ∀ ns ∈ namespaces, ns.Parsed) {text : String}
    (h : (r.render namespaces).text = .ok text) :
    ∃ document : Document,
      (declareNamespaces r.options namespaces r.state).result = .ok document ∧
        text = document.text r.options.indent ∧
        List.Forall₂ Block.DeclaresMembers (visibleNamespaces namespaces) document.blocks ∧
        ∀ ps ∈ document.parameterLists, NamedInside namespaces ps := by
  obtain ⟨document, hdocument, rfl⟩ := map_eq_ok_iff.1 h
  have hblocks : Yields (declareNamespaces r.options namespaces) fun d =>
      List.Forall₂ Block.DeclaresMembers (visibleNamespaces namespaces) d.blocks := by
    refine (Yields.forall₂_mapM fun ns hns => ?_).bind_pure fun blocks hblocks => hblocks
    have hmem : ns ∈ namespaces := List.mem_of_mem_filter (List.mem_mergeSort.1 hns)
    exact declaresMembers_of_parsed (hparsed ns hmem) r.options
  exact ⟨document, hdocument, rfl, hblocks r.state document hdocument,
    namedInside_of_mem_parameterLists hdocument⟩

/-- A parameter that is a text. -/
def textParameter (name : String) : Node where
  name := some name
  kind := some "string"

/-- A namespace in which one function has the alias of the other one as its name, and two pairs of
parameters have similar names. -/
def aliased : NamespaceNode where
  name := "history"
  functions := [
    { name := some "delete"
      parameters := some (["frame-id", "frame_id", "default", "_default"].map textParameter) },
    { name := some "_delete" }]

/-- **Different names need not stay apart**: both functions are declared under the same name, and
four parameters have two names. -/
theorem render_aliased :
    ∃ ns document, aliased.parse = .ok ns ∧
      (declareNamespaces {} [ns] {}).result = .ok document ∧
      (Property.visible ns.members).map (·.name) = ["delete", "_delete"] ∧
      document.statements.map (·.declaration.name) = ["_delete", "_delete"] ∧
      document.parameterLists.map (fun ps => ps.map (·.name)) =
        [["frame_id", "frame_id", "_default", "_default"], []] := by
  have hparse : aliased.parse.map (fun ns => (Property.visible ns.members).map (·.name)) =
      .ok ["delete", "_delete"] := by decide +kernel
  obtain ⟨ns, hns, hmembers⟩ := map_eq_ok_iff.1 hparse
  have hdeclared : aliased.parse.map (fun ns => (declareNamespaces {} [ns] {}).result.map fun d =>
      (d.statements.map (·.declaration.name), d.parameterLists.map fun ps => ps.map (·.name))) =
        .ok (.ok (["_delete", "_delete"],
          [["frame_id", "frame_id", "_default", "_default"], []])) := by decide +kernel
  rw [hns] at hdeclared
  obtain ⟨document, hdocument, hnames⟩ := map_eq_ok_iff.1 (Except.ok.inj hdeclared)
  obtain ⟨hstatements, hlists⟩ := Prod.mk.inj hnames
  exact ⟨ns, document, hns, hdocument, hmembers, hstatements, hlists⟩

/-- In both cases the names clash. -/
theorem render_names_aliased :
    ∃ ns text document, aliased.parse = .ok ns ∧ (render {} [ns]).text = .ok text ∧
      (declareNamespaces {} [ns] {}).result = .ok document ∧
      List.Forall₂ Block.DeclaresMembers (visibleNamespaces [ns]) document.blocks ∧
      ∀ ps ∈ document.parameterLists, NamedInside [ns] ps := by
  have hrenders : aliased.parse.map (fun ns => (render {} [ns]).text.toOption.isSome) =
      .ok true := by decide +kernel
  obtain ⟨ns, hns, hrenders⟩ := map_eq_ok_iff.1 hrenders
  have hparsed : ∀ n ∈ [ns], n.Parsed :=
    List.forall_mem_singleton.2 ⟨aliased, ns, hns, .inl rfl⟩
  cases htext : (render {} [ns]).text with
  | error e =>
    rw [htext] at hrenders
    cases hrenders
  | ok text =>
    obtain ⟨document, hdocument, -, hblocks, hlists⟩ := render_names hparsed htext
    exact ⟨ns, text, document, hns, htext, hdocument, hblocks, hlists⟩

end Renderer

end ApiTypings
