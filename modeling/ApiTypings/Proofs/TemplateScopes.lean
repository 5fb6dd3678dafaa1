import ApiTypings.Proofs.Muting
import ApiTypings.Proofs.TemplateErrors
/-!
# Where template parameters are in scope

A type that a namespace declares may have template parameters, from the table of generic types or of
its own. They are in scope while the type is declared, and nowhere else (`Property.scopeIn`).

* If a rendering succeeds, each paragraph of a block declares one visible member of the namespace, and
  does so with the template parameters of this member in scope (`declaredBy_of_declareNamespaces`).
  From `ApiType.DeclaredBy`, which says how a paragraph comes about, it follows that names that are
  written in it are in scope (`ApiType.DeclaredBy.inScope`) and that what would be written can be
  (`ApiType.DeclaredBy.declarable`).
* If it fails, it does so for one visible member (`blames_of_declareNamespaces`).

Main statement: `Renderer.render_binds`.
-/

namespace ApiTypings

/-! ### Template parameters of a member -/

/-- The template parameters that are in scope while a member of a namespace is declared. -/
def Property.scopeIn (ns : String) (p : Property ApiType) : List String :=
  if p.isType then (templatesOf? (member ns p.name) p.type).elim [] templateNames else []

/-- The member declares a type, and the template parameters that this has by the table of generic types
or else of its own name the parameter. -/
def Property.Binds (ns : String) (p : Property ApiType) (name : String) : Prop :=
  p.isType = true ∧ ∃ templates, templatesOf? (member ns p.name) p.type = some templates ∧
    name ∈ templateNames templates

theorem Property.mem_scopeIn_iff {ns : String} {p : Property ApiType} {name : String} :
    name ∈ p.scopeIn ns ↔ p.Binds ns name := by
  unfold scopeIn Binds
  cases p.isType with
  | false => simp
  | true => cases templatesOf? (member ns p.name) p.type <;> simp

/-- What is declared of the type of a member of a namespace. Interfaces and functions are declared by
what they are made of, and of a constant only the value is written. -/
def Property.declaredMode (p : Property ApiType) : PrintMode :=
  match p.isType, p.isConst, p.type with
  | true, _, .object .. => .body
  | false, true, .literal _ => .body
  | false, _, .function .. => .body
  | _, _, _ => .whole

open Announcing

/-! ### How a paragraph comes about -/

/-- The statements declare a type at a path in a mode, with these template parameters in scope. -/
inductive ApiType.DeclaredBy (scope : List String) (path : String) (t : ApiType) :
    PrintMode → List Statement → Prop
  /-- A value that may not be there can be `undefined`. -/
  | whole {e : TypeExpr} {s : Statement} (hlower : t.lower scope path = .ok e)
      (htypes : s.declaration.types = [e] ∨ s.declaration.types = [e.orUndefined]) :
      DeclaredBy scope path t .whole [s]
  | interface {properties : List (Property ApiType)} {further : Option ApiType}
      {templates instanceType : Option String} {members : List (ObjectMember TypeExpr)}
      {s : Statement} (ht : t = .object properties further templates instanceType)
      (hmembers : lowerObject scope path properties further = .ok members)
      (htypes : s.declaration.types = members.flatMap ObjectMember.types) :
      DeclaredBy scope path t .body [s]
  | constant {value : Literal} {s : Statement} (ht : t = .literal value)
      (htypes : s.declaration.types = []) : DeclaredBy scope path t .body [s]
  | overloads {c : Callable Deferred} {signatures : List (Signature Deferred)}
      {statements : List Statement} (hfunction : t.isFunction = true)
      (hc : t.lowerCallable? scope path = some c)
      (hsignatures : c.loweredSignatures path = .ok signatures)
      (hstatements : List.Forall₂ (fun s statement => ∃ parameters returns,
        s.lowered = .ok (parameters, returns) ∧
          statement.declaration.types = parameters.map (·.type) ++ [returns])
        signatures statements) : DeclaredBy scope path t .body statements

/-- The paragraph of a member of a namespace. -/
def Property.DeclaredBy (ns : String) (p : Property ApiType) (paragraph : List Statement) : Prop :=
  p.type.DeclaredBy (p.scopeIn ns) (member ns p.name) p.declaredMode paragraph

section

variable {scope : List String} {path ns : String} {p : Property ApiType} {m : Bool}
  {paragraph : List Statement}

theorem scopeIn_eq_nil (hp : p.isType = false) : p.scopeIn ns = [] := by
  rw [Property.scopeIn, hp]
  rfl

theorem declaredMode_of_value (hp : p.isType = false) (hfunction : p.type.isFunction = false)
    (hconst : ∀ value, p.type = .literal value → p.isConst = true → False) :
    p.declaredMode = .whole := by
  rw [Property.declaredMode, hp]
  cases htype : p.type with
  | function =>
    rw [htype] at hfunction
    cases hfunction
  | literal value =>
    cases hisConst : p.isConst with
    | true => exact (hconst value htype hisConst).elim
    | false => rfl
  | _ => cases p.isConst <;> rfl

theorem declaredMode_of_function (hp : p.isType = false) (hfunction : p.type.isFunction = true) :
    p.declaredMode = .body := by
  rw [Property.declaredMode, hp]
  cases htype : p.type with
  | function => cases p.isConst <;> rfl
  | _ =>
    rw [htype] at hfunction
    cases hfunction

theorem declaredBy_of_declareScopedType {templates : Option String} (hp : p.isType = true)
    (h : (declareScopedType p path templates ⟨scope, m⟩).result = .ok paragraph) :
    p.type.DeclaredBy scope path p.declaredMode paragraph := by
  unfold declareScopedType at h
  obtain ⟨_, hscope, h⟩ := result_bind_eq_ok_iff.1 h
  cases hscope
  dsimp only at h
  cases htype : p.type with
  | object properties further templates' instanceType =>
    rw [htype] at h
    obtain ⟨members, hmembers, h⟩ := result_bind_eq_ok_iff.1 h
    obtain ⟨-, -, h⟩ := result_bind_eq_ok_iff.1 h
    obtain ⟨-, -, h⟩ := result_bind_eq_ok_iff.1 h
    cases h
    rw [Property.declaredMode, hp, htype]
    refine .interface rfl hmembers ?_
    cases instanceType <;> rfl
  | _ =>
    rw [htype] at h
    obtain ⟨e, he, h⟩ := result_bind_eq_ok_iff.1 h
    obtain ⟨-, -, h⟩ := result_bind_eq_ok_iff.1 h
    cases h
    rw [Property.declaredMode, hp, htype]
    exact .whole he (.inl rfl)

theorem declaredBy_of_declareType (hp : p.isType = true)
    (h : (declareType ns p ⟨[], m⟩).result = .ok paragraph) : p.DeclaredBy ns paragraph := by
  have hscope : p.scopeIn ns = (templatesOf? (member ns p.name) p.type).elim [] templateNames :=
    if_pos hp
  rw [Property.DeclaredBy, hscope]
  exact declaredBy_of_declareScopedType hp h

theorem declaredBy_of_declareValue (hp : p.isType = false) (hfunction : p.type.isFunction = false)
    (h : (declareValue ns p ⟨[], m⟩).result = .ok paragraph) : p.DeclaredBy ns paragraph := by
  rw [Property.DeclaredBy, scopeIn_eq_nil hp]
  unfold declareValue at h
  obtain ⟨_, hnames, h⟩ := result_bind_eq_ok_iff.1 h
  cases hnames
  obtain ⟨⟨kind, declaration⟩, hvalue, h⟩ := result_bind_eq_ok_iff.1 h
  obtain ⟨-, -, h⟩ := result_bind_eq_ok_iff.1 h
  cases h
  replace hvalue : valueDeclaration [] p (member ns p.name) = .ok (kind, declaration) := hvalue
  unfold valueDeclaration at hvalue
  split at hvalue
  next value htype hconst =>
    cases hvalue
    have hmode : p.declaredMode = .body := by
      rw [Property.declaredMode, hp, hconst, htype]
    rw [hmode]
    exact .constant htype rfl
  next hconst =>
    have hmode : p.declaredMode = .whole := declaredMode_of_value hp hfunction hconst
    rw [hmode]
    obtain ⟨e, he, hvalue⟩ := bind_eq_ok_iff.1 hvalue
    split_ifs at hvalue <;> cases hvalue
    · exact .whole he (.inl rfl)
    · exact .whole he (.inl rfl)
    · exact .whole he (.inr rfl)
    · exact .whole he (.inl rfl)

/-- Muting has no part in what overloads come to. -/
theorem forall₂_of_declareOverloads {signatures : List (Signature Deferred)} {first : Bool}
    {s : RendererState} (h : (declareOverloads p path first signatures s).result = .ok paragraph) :
    List.Forall₂ (fun s statement => ∃ parameters returns, s.lowered = .ok (parameters, returns) ∧
      statement.declaration.types = parameters.map (·.type) ++ [returns]) signatures paragraph := by
  induction signatures generalizing first s paragraph with
  | nil =>
    cases h
    exact .nil
  | cons signature rest ih =>
    unfold declareOverloads at h
    obtain ⟨-, -, h⟩ := result_bind_eq_ok_iff.1 h
    obtain ⟨-, -, h⟩ := result_bind_eq_ok_iff.1 h
    obtain ⟨⟨parameters, returns⟩, hlowered, h⟩ := result_bind_eq_ok_iff.1 h
    obtain ⟨statements, hstatements, h⟩ := result_bind_eq_ok_iff.1 h
    cases h
    exact .cons ⟨parameters, returns, hlowered, rfl⟩ (ih hstatements)

theorem declaredBy_of_declareFunction (hp : p.isType = false) (hfunction : p.type.isFunction = true)
    (h : (declareFunction ns p ⟨[], m⟩).result = .ok paragraph) : p.DeclaredBy ns paragraph := by
  rw [Property.DeclaredBy, scopeIn_eq_nil hp, declaredMode_of_function hp hfunction]
  unfold declareFunction at h
  obtain ⟨_, hnames, h⟩ := result_bind_eq_ok_iff.1 h
  cases hnames
  cases hc : p.type.lowerCallable? [] (member ns p.name) with
  | none =>
    have hsome := ApiType.isSome_lowerCallable? [] (member ns p.name) p.type
    rw [hc, hfunction] at hsome
    cases hsome
  | some c =>
    rw [hc] at h
    obtain ⟨signatures, hsignatures, h⟩ := result_bind_eq_ok_iff.1 h
    obtain ⟨statements, hstatements, h⟩ := result_bind_eq_ok_iff.1 h
    obtain ⟨-, -, h⟩ := result_bind_eq_ok_iff.1 h
    cases h
    exact .overloads hfunction hc hsignatures (forall₂_of_declareOverloads hstatements)

end

/-- The members of a namespace in the order in which they are declared. -/
def Namespace.declaredMembers (sorted : Bool) (ns : Namespace) : List (Property ApiType) :=
  (memberGroups sorted ns.members).1 ++ (memberGroups sorted ns.members).2.1
    ++ (memberGroups sorted ns.members).2.2

theorem declaredBy_of_declareNamespace {options : RenderOptions} {ns : Namespace} {m : Bool}
    {b : Block} (h : (declareNamespace options ns ⟨[], m⟩).result = .ok b) :
    List.Forall₂ (Property.DeclaredBy ns.name) (ns.declaredMembers options.sortMembers)
      b.paragraphs := by
  obtain ⟨htypes, hvalues, hfunctions⟩ := mem_memberGroups options.sortMembers ns.members
  unfold declareNamespace declareMembers at h
  obtain ⟨_, m, -, h⟩ := (steady_announce _ _ _).exists_of_bind h
  dsimp only at h
  obtain ⟨types, m, ht, h⟩ := (Steady.mapM_none (steady_declareType ns.name) _).exists_of_bind h
  obtain ⟨values, m, hv, h⟩ := (Steady.mapM_none (steady_declareValue [] ns.name) _).exists_of_bind h
  obtain ⟨functions, hf, rfl⟩ := (Steady.mapM (steady_declareFunction ns.name) _).of_bind_pure h
  refine List.rel_append (List.rel_append ?_ ?_) ?_
  · have hall := (List.forall₂_and_left _ _).2
      ⟨htypes, Steady.forall₂_of_mapM (steady_declareType ns.name) ht⟩
    exact hall.imp fun p paragraph hp => declaredBy_of_declareType hp.1 hp.2
  · have hall := (List.forall₂_and_left _ _).2
      ⟨hvalues, Steady.forall₂_of_mapM (steady_declareValue [] ns.name) hv⟩
    exact hall.imp fun p paragraph hp => declaredBy_of_declareValue hp.1.1 hp.1.2 hp.2
  · have hall := (List.forall₂_and_left _ _).2
      ⟨hfunctions, Steady.forall₂_of_mapM (steady_declareFunction ns.name) hf⟩
    exact hall.imp fun p paragraph hp => declaredBy_of_declareFunction hp.1.1 hp.1.2 hp.2

/-- **A document** has a block for each namespace that has anything to declare, and this a paragraph
for each visible member. -/
theorem declaredBy_of_declareNamespaces {options : RenderOptions} {namespaces : List Namespace}
    {m : Bool} {d : Document} (h : (declareNamespaces options namespaces ⟨[], m⟩).result = .ok d) :
    List.Forall₂ (fun ns b => List.Forall₂ (Property.DeclaredBy ns.name)
      (ns.declaredMembers options.sortMembers) b.paragraphs)
      (visibleNamespaces namespaces) d.blocks := by
  unfold declareNamespaces at h
  obtain ⟨blocks, hblocks, rfl⟩ := (Steady.mapM (steady_declareNamespace options) _).of_bind_pure h
  have hall := Steady.forall₂_of_mapM (steady_declareNamespace options) hblocks
  exact hall.imp fun ns b hb => declaredBy_of_declareNamespace hb

/-! ### What a paragraph says -/

/-- A template parameter that is named is in scope. -/
def InScope (scope : List String) (target : Reference) (_ : List TypeExpr) : Prop :=
  target.generic = true → target.name ∈ scope

theorem inScope_of_finalTarget {scope : List String} {path : String} {target final : Reference}
    {replacement : Option Replacement} (h : finalTarget scope path target replacement = .ok final)
    (items : List TypeExpr) : InScope scope final items := by
  have hcheck : ∀ target : Reference, finalTarget.check scope path target = .ok final →
      InScope scope final items := by
    intro target h hgeneric
    unfold finalTarget.check at h
    split_ifs at h with hfails
    cases h
    simpa [hgeneric] using hfails
  unfold finalTarget at h
  split at h
  · exact hcheck _ h
  · exact hcheck _ h

/-- Lowering names template parameters only that are in scope. -/
theorem namesAt_inScope (scope : List String) :
    NamesAt (fun names _ => names = scope) (InScope scope) where
  below _ h := h
  promise _ h := by cases h
  template {names path name} h hname _ := by
    subst h
    simpa using hname
  applied _ happlied _ hgeneric := by
    cases Replacement.does_of_find? happlied with
    | applyToAny hslots hbare =>
      rw [hbare.2.1] at hgeneric
      cases hgeneric
  reference h _ _ hfinal _ := by
    subst h
    exact inScope_of_finalTarget hfinal _

namespace ApiType

variable {scope : List String} {path : String} {t : ApiType} {mode : PrintMode}
  {statements : List Statement}

/-- **Names that are written are in scope**, at any depth. -/
theorem DeclaredBy.inScope (h : t.DeclaredBy scope path mode statements) :
    ∀ s ∈ statements, ∀ e ∈ s.declaration.types, e.NamesHold (InScope scope) := by
  have hkept := TypeExpr.keptByBuilding_namesHold (InScope scope) OptionalLast
  have hnames := namesAt_inScope scope
  have hlowers : ∀ t : ApiType, t.LowersAt (fun names _ => names = scope) OptionalLast
      (TypeExpr.NamesHold (InScope scope)) := fun t =>
    hkept.lower_of_calls hnames t.calls_optionalLast
  cases h with
  | @whole e s hlower htypes =>
    have he : e.NamesHold (InScope scope) := (hlowers t).type scope path rfl e hlower
    refine List.forall_mem_singleton.2 ?_
    rcases htypes with htypes | htypes <;> rw [htypes, List.forall_mem_singleton]
    · exact he
    · exact hkept.orUndefined he
  | interface ht hmembers htypes =>
    refine List.forall_mem_singleton.2 ?_
    rw [htypes]
    exact TypeExpr.forall_mem_memberTypes (hkept.lowerObject hnames rfl
      (fun p _ => p.type.calls_optionalLast) (fun i _ => i.calls_optionalLast) hmembers)
  | constant ht htypes =>
    refine List.forall_mem_singleton.2 ?_
    rw [htypes]
    exact List.forall_mem_nil _
  | @overloads c signatures _ hfunction hc hsignatures hstatements =>
    intro statement hstatement
    obtain ⟨s, hs, parameters, returns, hlowered, htypes⟩ := exists_left_of_mem hstatements hstatement
    obtain ⟨hparameters, hreturns⟩ := hkept.lowered_overload hnames c.makes_optionalLast
      ((hlowers t).callable scope path rfl c hc) hsignatures hs hlowered
    rw [htypes]
    exact TypeExpr.forall_mem_types hparameters hreturns

/-- **What is declared** could be. -/
theorem DeclaredBy.declarable (h : t.DeclaredBy scope path mode statements) :
    t.Declarable scope path mode := by
  cases h with
  | whole hlower htypes => exact ⟨_, hlower⟩
  | interface ht hmembers htypes =>
    rw [ht]
    exact bodyLowers_of_lowerObject hmembers
  | constant ht htypes =>
    rw [ht]
    exact bodyLowers_of_parts rfl rfl rfl (List.forall_mem_nil _)
  | overloads hfunction hc hsignatures hstatements =>
    refine bodyLowers_of_computed hfunction fun c hmem => ?_
    obtain rfl := Option.mem_unique hc hmem
    refine Callable.computed_of_lowered hsignatures fun s hs => ?_
    obtain ⟨statement, -, parameters, returns, hlowered, -⟩ := exists_right_of_mem hstatements hs
    exact ⟨(parameters, returns), hlowered⟩

end ApiType

/-! ### What a refusal says -/

/-- If a member is refused for a template parameter, this would be written in its declaration, and the
member does not have it. -/
def Property.Blames (ns : String) (p : Property ApiType) (e : DeclarationError) : Prop :=
  p.type.Blames (p.scopeIn ns) p.declaredMode (member ns p.name) e

section

variable {scope : List String} {path ns : String} {p : Property ApiType} {m : Bool}
  {e : DeclarationError}

theorem result_announceMembers (path : String) (properties : List (Property ApiType))
    (s : RendererState) : (announceMembers path properties s).result = .ok () := by
  unfold announceMembers
  induction Property.visible properties with
  | nil => rfl
  | cons p ps ih => exact result_bind_eq_ok_iff.2 ⟨(), rfl, ih⟩

theorem blames_of_declareScopedType {templates : Option String} (hp : p.isType = true)
    (h : (declareScopedType p path templates ⟨scope, m⟩).result = .error e) :
    p.type.Blames scope p.declaredMode path e := by
  unfold declareScopedType at h
  replace h := (result_scope_bind _ _).symm.trans h
  rw [Property.declaredMode, hp]
  cases htype : p.type with
  | object properties further own instanceType =>
    rw [htype] at h
    refine ((ApiType.blaming scope _).body path).lowerObject e (error_of_lift_bind h fun members => ?_)
    exact ⟨_, result_bind_eq_ok_iff.2 ⟨(), rfl, result_bind_eq_ok_iff.2
      ⟨(), result_announceMembers .., rfl⟩⟩⟩
  | _ =>
    rw [htype] at h
    exact (ApiType.blaming scope _).type path e (error_of_lift_bind h fun _ => ⟨_, rfl⟩)

theorem blames_of_declareType (hp : p.isType = true)
    (h : (declareType ns p ⟨[], m⟩).result = .error e) : p.Blames ns e := by
  have hscope : p.scopeIn ns = (templatesOf? (member ns p.name) p.type).elim [] templateNames :=
    if_pos hp
  rw [Property.Blames, hscope]
  exact blames_of_declareScopedType hp h

theorem blames_of_declareValue (hp : p.isType = false) (hfunction : p.type.isFunction = false)
    (h : (declareValue ns p ⟨[], m⟩).result = .error e) : p.Blames ns e := by
  rw [Property.Blames, scopeIn_eq_nil hp]
  unfold declareValue at h
  replace h := (result_scope_bind _ _).symm.trans h
  replace h : valueDeclaration [] p (member ns p.name) = .error e :=
    error_of_lift_bind h fun _ => ⟨_, rfl⟩
  unfold valueDeclaration at h
  split at h
  next => cases h
  next hconst =>
    have hmode : p.declaredMode = .whole := declaredMode_of_value hp hfunction hconst
    rw [hmode]
    rcases bind_eq_error_iff.1 h with h | ⟨t, -, h⟩
    · exact (ApiType.blaming [] _).type _ e h
    · split_ifs at h <;> cases h

theorem error_of_declareOverloads {signatures : List (Signature Deferred)} {first : Bool}
    {s : RendererState} (h : (declareOverloads p path first signatures s).result = .error e) :
    ∃ s ∈ signatures, s.lowered = .error e := by
  induction signatures generalizing first s with
  | nil => cases h
  | cons signature rest ih =>
    unfold declareOverloads at h
    rcases result_bind_eq_error_iff.1 h with h | ⟨-, -, h⟩
    · cases h
    rcases result_bind_eq_error_iff.1 h with h | ⟨-, -, h⟩
    · cases h
    rcases result_bind_eq_error_iff.1 h with h | ⟨l, -, h⟩
    · exact ⟨signature, List.mem_cons_self .., h⟩
    rcases result_bind_eq_error_iff.1 h with h | ⟨statements, -, h⟩
    · obtain ⟨s, hs, hfails⟩ := ih h
      exact ⟨s, List.mem_cons_of_mem _ hs, hfails⟩
    · cases h

theorem blames_of_declareFunction (hp : p.isType = false) (hfunction : p.type.isFunction = true)
    (h : (declareFunction ns p ⟨[], m⟩).result = .error e) : p.Blames ns e := by
  rw [Property.Blames, scopeIn_eq_nil hp, declaredMode_of_function hp hfunction]
  have hbody := (ApiType.blaming [] p.type).body (member ns p.name)
  unfold declareFunction at h
  replace h := (result_scope_bind _ _).symm.trans h
  cases hc : p.type.lowerCallable? [] (member ns p.name) with
  | none =>
    rw [hc] at h
    cases h
  | some c =>
    rw [hc] at h
    rcases result_bind_eq_error_iff.1 h with h | ⟨signatures, hsignatures, h⟩
    · exact hbody.signatures c hc e h
    rcases result_bind_eq_error_iff.1 h with h | ⟨statements, -, h⟩
    · obtain ⟨s, hs, hfails⟩ := error_of_declareOverloads h
      exact failsWith_lowered (hbody.callable c hc) hsignatures hs e hfails
    · cases h

theorem blames_of_declareNamespace {options : RenderOptions} {ns : Namespace}
    (h : (declareNamespace options ns ⟨[], m⟩).result = .error e) :
    ∃ p ∈ ns.declaredMembers options.sortMembers, p.Blames ns.name e := by
  obtain ⟨htypes, hvalues, hfunctions⟩ := mem_memberGroups options.sortMembers ns.members
  unfold declareNamespace declareMembers at h
  rcases (steady_announce _ _ _).error_of_bind h with h | ⟨_, m, h⟩
  · cases h
  dsimp only at h
  rcases (Steady.mapM_none (steady_declareType ns.name) _).error_of_bind h with h | ⟨_, m, h⟩
  · obtain ⟨p, hp, hfails⟩ := Steady.exists_error_of_mapM (steady_declareType ns.name) h
    exact ⟨p, List.mem_append_left _ (List.mem_append_left _ hp),
      blames_of_declareType (htypes p hp) hfails⟩
  rcases (Steady.mapM_none (steady_declareValue [] ns.name) _).error_of_bind h with h | ⟨_, m, h⟩
  · obtain ⟨p, hp, hfails⟩ := Steady.exists_error_of_mapM (steady_declareValue [] ns.name) h
    exact ⟨p, List.mem_append_left _ (List.mem_append_right _ hp),
      blames_of_declareValue (hvalues p hp).1 (hvalues p hp).2 hfails⟩
  replace h := (Steady.mapM (steady_declareFunction ns.name) _).error_of_bind_pure h
  obtain ⟨p, hp, hfails⟩ := Steady.exists_error_of_mapM (steady_declareFunction ns.name) h
  exact ⟨p, List.mem_append_right _ hp,
    blames_of_declareFunction (hfunctions p hp).1 (hfunctions p hp).2 hfails⟩

/-- **Namespaces are refused** for one of their visible members. -/
theorem blames_of_declareNamespaces {options : RenderOptions} {namespaces : List Namespace}
    (h : (declareNamespaces options namespaces ⟨[], m⟩).result = .error e) :
    ∃ ns ∈ visibleNamespaces namespaces, ∃ p ∈ Property.visible ns.members, p.Blames ns.name e := by
  unfold declareNamespaces at h
  replace h := (Steady.mapM (steady_declareNamespace options) _).error_of_bind_pure h
  obtain ⟨ns, hns, hfails⟩ := Steady.exists_error_of_mapM (steady_declareNamespace options) h
  obtain ⟨p, hp, hblames⟩ := blames_of_declareNamespace hfails
  exact ⟨ns, hns, p, (memberGroups_perm _ _).mem_iff.1 hp, hblames⟩

end

/-! ### Renderings -/

/-- Every template parameter that is named in the paragraph of a member is bound by the member. -/
def Property.NamesBound (ns : String) (p : Property ApiType) (paragraph : List Statement) : Prop :=
  ∀ s ∈ paragraph, ∀ e ∈ s.declaration.types, ∀ target arguments,
    (TypeExpr.named target arguments).Inside e → target.generic = true → p.Binds ns target.name

/-- A template parameter would be written at a place, at any depth, in the declaration of a visible
member that does not have it: one of the model, or one that takes the place of another type. -/
def LeavesUnbound (namespaces : List Namespace) (place name : String) : Prop :=
  ∃ ns ∈ visibleNamespaces namespaces, ∃ p ∈ Property.visible ns.members, ¬p.Binds ns.name name ∧
    ∃ target arguments, target.generic = true ∧ target.name = name ∧
      ApiType.Printed place (.reference target arguments) p.declaredMode (member ns.name p.name) p.type

/-- **Template parameters are declared only where they are bound.** After any renderings, failed ones
included, the following holds of the next one. If it succeeds, its text is that of a document with a
block for each namespace that has anything to declare, in which each paragraph declares one visible
member, and every template parameter that is named in the paragraph, at any depth, is one of those
that this member has as a type. If a template parameter would be left unbound it fails, and whenever
it fails with an error about a template parameter this would be left unbound at the place that the
error tells. -/
theorem Renderer.render_binds (options : RenderOptions) (earlier : List (List Namespace))
    (namespaces : List Namespace) :
    (∀ text, ((after options earlier).render namespaces).text = .ok text →
      ∃ document : Document,
        (declareNamespaces options namespaces (after options earlier).state).result = .ok document ∧
          text = document.text options.indent ∧
          List.Forall₂ (fun ns b => List.Forall₂ (Property.NamesBound ns.name)
            (ns.declaredMembers options.sortMembers) b.paragraphs)
            (visibleNamespaces namespaces) document.blocks) ∧
      (∀ place name, LeavesUnbound namespaces place name →
        ∃ e, ((after options earlier).render namespaces).text = .error e) ∧
      ∀ place name, ((after options earlier).render namespaces).text =
        .error (.templateReference place name) → LeavesUnbound namespaces place name := by
  obtain ⟨muted, hafter, -⟩ := exists_after_eq options earlier
  rw [hafter]
  refine ⟨fun text h => ?_, ?_, fun place name h => ?_⟩
  · obtain ⟨document, hdocument, rfl⟩ := map_eq_ok_iff.1 h
    refine ⟨document, hdocument, rfl, ?_⟩
    refine (declaredBy_of_declareNamespaces hdocument).imp fun ns b hb =>
      hb.imp fun p paragraph hp => ?_
    intro s hs e he target arguments hinside hgeneric
    exact Property.mem_scopeIn_iff.1 (hp.inScope s hs e he target arguments hinside hgeneric)
  · rintro place _ ⟨ns, hns, p, hp, hnot, target, arguments, hgeneric, rfl, hprinted⟩
    refine exists_error_iff.2 fun ⟨text, htext⟩ => hnot ?_
    obtain ⟨document, hdocument, -⟩ := map_eq_ok_iff.1 htext
    obtain ⟨b, -, hb⟩ := exists_right_of_mem (declaredBy_of_declareNamespaces hdocument) hns
    have hmember : p ∈ ns.declaredMembers options.sortMembers :=
      (memberGroups_perm _ _).mem_iff.2 hp
    obtain ⟨paragraph, -, hparagraph⟩ := exists_right_of_mem hb hmember
    exact Property.mem_scopeIn_iff.1 (hprinted.mem_scope hgeneric hparagraph.declarable)
  · obtain ⟨ns, hns, p, hp, hblames⟩ := blames_of_declareNamespaces (map_eq_error_iff.1 h)
    obtain ⟨hname, hwritten⟩ := hblames place name rfl
    exact ⟨ns, hns, p, hp, fun hbinds => hname (Property.mem_scopeIn_iff.2 hbinds), hwritten⟩

/-- A function with a callback in the place of which a template parameter is put that no function has
cannot be declared. After it, events can: their listeners are parameters of the type of events. -/
theorem Renderer.render_binds_stoppedFunction :
    (∃ e, (render {} [stoppedFunction]).text = .error e) ∧
      ∃ document : Document,
        (declareNamespaces {} [ruledEvents] (after {} [[stoppedFunction]]).state).result =
            .ok document ∧
          List.Forall₂ (fun ns b => List.Forall₂ (Property.NamesBound ns.name)
            (ns.declaredMembers false) b.paragraphs)
            (visibleNamespaces [ruledEvents]) document.blocks := by
  constructor
  · obtain ⟨-, hfails, -⟩ := render_binds {} [] [stoppedFunction]
    refine hfails "events.Event.addListener.callback" "H" ⟨stoppedFunction, ?_, _,
      List.mem_singleton_self _, ?_, ⟨"H", false, true⟩, [], rfl, rfl, .callback (.self rfl)⟩
    · exact List.mem_mergeSort.2 (List.mem_singleton_self _)
    · rintro ⟨htype, -⟩
      cases htype
  · obtain ⟨hbound, -⟩ := render_binds {} [[stoppedFunction]] [ruledEvents]
    have hrenders : ((after {} [[stoppedFunction]]).render [ruledEvents]).text.toOption.isSome =
        true := by
      decide +kernel
    cases htext : ((after {} [[stoppedFunction]]).render [ruledEvents]).text with
    | error e =>
      rw [htext] at hrenders
      cases hrenders
    | ok text =>
      obtain ⟨document, hdocument, -, hnames⟩ := hbound text htext
      exact ⟨document, hdocument, hnames⟩

end ApiTypings
