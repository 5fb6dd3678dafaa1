import ApiTypings.Proofs.Announcements
import ApiTypings.Proofs.Buildings
/-!
# What a document consists of

Whatever every way of building expressions keeps holds of all expressions of a document
(`KeptByLowering.result_declareNamespaces`), and what is known of the names at the places below a
namespace holds of those in its block (`KeptByBuilding.blocks_declareNamespaces`).
`Announcing.Yields` says of a computation that what it comes to has a property, whatever the state is
that it starts from.
-/

namespace ApiTypings

/-! ### What a computation comes to -/

namespace Announcing

variable {α β γ : Type} {x : Announcing α} {P : α → Prop} {Q : β → Prop}

/-- From every state, if the computation succeeds, `P` holds of what it comes to. -/
def Yields (x : Announcing α) (P : α → Prop) : Prop :=
  ∀ s a, (x s).result = .ok a → P a

theorem yields_pure {a : α} (h : P a) : Yields (pure a) P := by
  intro s b hb
  cases hb
  exact h

theorem yields_lift {result : Except DeclarationError α} (h : ∀ a, result = .ok a → P a) :
    Yields (lift result) P :=
  fun _ a ha => h a ha

theorem Yields.bind {f : α → Announcing β} (hx : Yields x P) (hf : ∀ a, P a → Yields (f a) Q) :
    Yields (x >>= f) Q := by
  intro s b hb
  obtain ⟨a, ha, hb⟩ := result_bind_eq_ok_iff.1 hb
  exact hf a (hx s a ha) _ b hb

/-- Of a first step nothing may be known. -/
theorem Yields.of_bind {f : α → Announcing β} (hf : ∀ a, Yields (f a) Q) : Yields (x >>= f) Q :=
  Yields.bind (fun _ _ _ => trivial) fun a (_ : True) => hf a

theorem Yields.bind_pure {g : α → β} (hx : Yields x P) (hg : ∀ a, P a → Q (g a)) :
    Yields (x >>= fun a => pure (g a)) Q :=
  hx.bind fun a ha => yields_pure (hg a ha)

theorem Yields.withScope {names : List String} (hx : Yields x P) : Yields (withScope names x) P :=
  fun _ a ha => hx _ a ha

/-- **Going through a list** yields elements that each have the property. -/
theorem Yields.mapM {f : γ → Announcing β} {xs : List γ} (h : ∀ x ∈ xs, Yields (f x) Q) :
    Yields (xs.mapM f) fun ys => ∀ y ∈ ys, Q y := by
  induction xs with
  | nil =>
    rw [List.mapM_nil]
    exact yields_pure (List.forall_mem_nil _)
  | cons x xs ih =>
    rw [List.mapM_cons]
    have hx : Yields (f x) Q := h x (List.mem_cons_self ..)
    have hxs : Yields (xs.mapM f) fun ys => ∀ y ∈ ys, Q y :=
      ih fun z hz => h z (List.mem_cons_of_mem _ hz)
    exact hx.bind fun y hy => hxs.bind_pure fun ys hys => List.forall_mem_cons.2 ⟨hy, hys⟩

/-- The same with a property that tells the elements apart. -/
theorem Yields.forall₂_mapM {R : γ → β → Prop} {f : γ → Announcing β} {xs : List γ}
    (h : ∀ x ∈ xs, Yields (f x) (R x)) : Yields (xs.mapM f) (List.Forall₂ R xs) := by
  induction xs with
  | nil =>
    rw [List.mapM_nil]
    exact yields_pure .nil
  | cons x xs ih =>
    obtain ⟨hx, hxs⟩ := List.forall_mem_cons.1 h
    rw [List.mapM_cons]
    exact hx.bind fun y hy => (ih hxs).bind_pure fun ys hys => .cons hy hys

end Announcing

open Announcing

/-! ### Declarations -/

/-- What is known of a declaration if `R` holds of every parameter list and `P` of every type that
is built. -/
def Declaration.Holds (R : List (Parameter TypeExpr) → Prop) (P : TypeExpr → Prop) :
    Declaration → Prop
  | typeAlias _ _ type => P type
  | interfaceType _ _ members => ∀ m ∈ members, m.Holds R P
  | classType _ _ _ members => ∀ m ∈ members, m.Holds R P
  | constant _ _ => True
  | typedConstant _ type => P type
  | letVariable _ type => P type
  | function _ parameters returns => ParametersHold R P parameters ∧ P returns

/-- What is known of a paragraph. -/
def Statement.AllHold (R : List (Parameter TypeExpr) → Prop) (P : TypeExpr → Prop)
    (statements : List Statement) : Prop :=
  ∀ s ∈ statements, s.declaration.Holds R P

/-- The declarations of a document with their comments. -/
def Document.statements (d : Document) : List Statement :=
  d.blocks.flatMap fun b => b.paragraphs.flatten

variable {Here : List String → String → Prop} {N : Reference → List TypeExpr → Prop}
  {R : List (Parameter TypeExpr) → Prop} {P : TypeExpr → Prop} {p : Property ApiType} {ns : String}

namespace KeptByBuilding

theorem yields_declareScopedType (hP : KeptByBuilding N R P) (hN : NamesAt Here N)
    (hp : p.type.Calls R) {path : String} (hhere : ∀ scope, Here scope path)
    (templates : Option String) :
    Yields (declareScopedType p path templates) (Statement.AllHold R P) := by
  unfold declareScopedType
  refine Yields.of_bind fun scope => ?_
  dsimp only
  split
  next properties further _ instanceType htype =>
    rw [htype] at hp
    have hproperties : ∀ q ∈ properties, q.type.Calls R := fun q hq u hu => hp u (.nested hq hu)
    have hfurther : ∀ i ∈ further, i.Calls R := fun i hi u hu => hp u (.index hi hu)
    have hmembers : Yields (lift (ApiType.lowerObject scope path properties further))
        fun members => ∀ m ∈ members, m.Holds R P :=
      yields_lift fun members h => hP.lowerObject hN (hhere scope) hproperties hfurther h
    refine hmembers.bind fun members hmembers => ?_
    refine Yields.of_bind fun _ => Yields.of_bind fun _ => yields_pure fun s hs => ?_
    rw [List.mem_singleton.1 hs]
    cases instanceType.isSome with
    | true => exact hmembers
    | false => exact hmembers
  next =>
    have htype : Yields (lift (p.type.lower scope path)) P :=
      yields_lift fun e he => (hP.lower_of_calls hN hp).type scope path (hhere scope) e he
    refine htype.bind fun type htype => Yields.of_bind fun _ => yields_pure ?_
    exact List.forall_mem_singleton.2 htype

theorem yields_declareType (hP : KeptByBuilding N R P) (hN : NamesAt Here N)
    (hp : p.type.Calls R) (hhere : ∀ scope, Here scope (member ns p.name)) :
    Yields (declareType ns p) (Statement.AllHold R P) :=
  (hP.yields_declareScopedType hN hp hhere _).withScope

theorem holds_valueDeclaration (hP : KeptByBuilding N R P) (hN : NamesAt Here N)
    (hp : p.type.Calls R) {scope : List String} {path : String} (hhere : Here scope path)
    {kind : SymbolKind} {declaration : Declaration}
    (h : valueDeclaration scope p path = .ok (kind, declaration)) : declaration.Holds R P := by
  unfold valueDeclaration at h
  split at h
  · cases h
    exact trivial
  · obtain ⟨e, he, h⟩ := bind_eq_ok_iff.1 h
    have he : P e := (hP.lower_of_calls hN hp).type scope path hhere e he
    split_ifs at h <;> cases h
    · exact he
    · exact he
    · exact hP.orUndefined he
    · exact he

theorem yields_declareValue (hP : KeptByBuilding N R P) (hN : NamesAt Here N)
    (hp : p.type.Calls R) (hhere : ∀ scope, Here scope (member ns p.name)) :
    Yields (declareValue ns p) (Statement.AllHold R P) := by
  refine Yields.of_bind fun scope => ?_
  have hvalue : Yields (lift (valueDeclaration scope p (member ns p.name)))
      fun value => value.2.Holds R P :=
    yields_lift fun value h => hP.holds_valueDeclaration hN hp (hhere scope) h
  refine hvalue.bind fun value hvalue => Yields.of_bind fun _ => yields_pure ?_
  exact List.forall_mem_singleton.2 hvalue

theorem yields_declareOverloads {signatures : List (Signature Deferred)}
    (h : ∀ s ∈ signatures, ∀ ps returns, s.lowered = .ok (ps, returns) →
      ParametersHold R P ps ∧ P returns)
    (p : Property ApiType) (path : String) (first : Bool) :
    Yields (declareOverloads p path first signatures) (Statement.AllHold R P) := by
  -- The overloads after the first are muted, so `first` changes along the induction.
  induction signatures generalizing first with
  | nil => exact yields_pure (List.forall_mem_nil _)
  | cons s rest ih =>
    obtain ⟨hs, hrest⟩ := List.forall_mem_cons.1 h
    unfold declareOverloads
    refine Yields.of_bind fun _ => Yields.of_bind fun _ => ?_
    have hlowered : Yields (lift s.lowered) fun l => ParametersHold R P l.1 ∧ P l.2 :=
      yields_lift fun l hl => hs l.1 l.2 hl
    refine hlowered.bind fun l hl => ?_
    exact (ih hrest false).bind_pure fun statements hstatements =>
      List.forall_mem_cons.2 ⟨hl, hstatements⟩

theorem yields_declareFunction (hP : KeptByBuilding N R P) (hN : NamesAt Here N)
    (hp : p.type.Calls R) (hhere : ∀ scope, Here scope (member ns p.name)) :
    Yields (declareFunction ns p) (Statement.AllHold R P) := by
  unfold declareFunction
  refine Yields.of_bind fun scope => ?_
  split
  next => exact yields_pure (List.forall_mem_nil _)
  next c hc =>
    have hsignatures : Yields (lift (c.loweredSignatures (member ns p.name))) fun signatures =>
        ∀ s ∈ signatures, ∀ ps returns, s.lowered = .ok (ps, returns) →
          ParametersHold R P ps ∧ P returns := by
      have hlowers := hP.lower_of_calls hN hp
      exact yields_lift fun signatures h s hs ps returns hlowered =>
        hP.lowered_overload hN (hlowers.makes scope _ c hc)
          (hlowers.callable scope _ (hhere scope) c hc) h hs hlowered
    refine hsignatures.bind fun signatures h => ?_
    refine (yields_declareOverloads h p _ true).bind fun statements hstatements => ?_
    exact Yields.of_bind fun _ => yields_pure hstatements

theorem yields_declareNamespace (hP : KeptByBuilding N R P) (hN : NamesAt Here N) {ns : Namespace}
    (hhere : ∀ scope name, Here scope (member ns.name name))
    (hns : ∀ p ∈ Property.visible ns.members, p.type.Calls R) (options : RenderOptions) :
    Yields (declareNamespace options ns) fun b => Statement.AllHold R P b.paragraphs.flatten := by
  have hmember : ∀ p ∈ (memberGroups options.sortMembers ns.members).1
      ++ (memberGroups options.sortMembers ns.members).2.1
      ++ (memberGroups options.sortMembers ns.members).2.2, p.type.Calls R := fun p hp =>
    hns p ((memberGroups_perm _ _).mem_iff.1 hp)
  simp only [List.forall_mem_append] at hmember
  obtain ⟨⟨htype, hvalue⟩, hfunction⟩ := hmember
  unfold declareNamespace declareMembers
  refine Yields.of_bind fun _ => ?_
  dsimp only
  refine (Yields.mapM fun p hp =>
    hP.yields_declareType hN (htype p hp) (hhere · p.name)).bind fun types htypes => ?_
  refine (Yields.mapM fun p hp =>
    hP.yields_declareValue hN (hvalue p hp) (hhere · p.name)).bind fun values hvalues => ?_
  refine (Yields.mapM fun p hp =>
    hP.yields_declareFunction hN (hfunction p hp) (hhere · p.name)).bind_pure
      fun functions hfunctions => ?_
  intro s hs
  obtain ⟨paragraph, hparagraph, hs⟩ := List.mem_flatten.1 hs
  rcases List.mem_append.1 hparagraph with hparagraph | hparagraph
  · rcases List.mem_append.1 hparagraph with hparagraph | hparagraph
    · exact htypes paragraph hparagraph s hs
    · exact hvalues paragraph hparagraph s hs
  · exact hfunctions paragraph hparagraph s hs

end KeptByBuilding

/-- What is kept whatever the names are holds of every declaration of a document, if `R` holds of every
parameter list that a function in it is written with. -/
theorem KeptByLowering.result_declareNamespaces (hP : KeptByLowering R P)
    {options : RenderOptions} {namespaces : List Namespace}
    (hcalls : ∀ ns ∈ visibleNamespaces namespaces, ∀ p ∈ Property.visible ns.members,
      p.type.Calls R)
    {state : RendererState} {d : Document}
    (h : (declareNamespaces options namespaces state).result = .ok d) :
    Statement.AllHold R P d.statements := by
  have hdocument : Yields (declareNamespaces options namespaces) fun d =>
      Statement.AllHold R P d.statements := by
    refine (Yields.mapM fun ns hns => KeptByBuilding.yields_declareNamespace hP namesAt_any
      (fun _ _ => trivial) (hcalls ns hns) options).bind_pure fun blocks hblocks => ?_
    intro s hs
    obtain ⟨b, hb, hs⟩ := List.mem_flatMap.1 hs
    exact hblocks b hb s hs
  exact hdocument state d h

/-- **What every way of building keeps** holds of every declaration in the block of a namespace, if `N`
holds of the names at the places below the namespace. -/
theorem KeptByBuilding.blocks_declareNamespaces {Here : Namespace → List String → String → Prop}
    {N : Namespace → Reference → List TypeExpr → Prop} {P : Namespace → TypeExpr → Prop}
    (hP : ∀ ns, KeptByBuilding (N ns) OptionalLast (P ns)) (hN : ∀ ns, NamesAt (Here ns) (N ns))
    (hhere : ∀ ns scope name, Here ns scope (member ns.name name)) {options : RenderOptions}
    {namespaces : List Namespace} {state : RendererState} {d : Document}
    (h : (declareNamespaces options namespaces state).result = .ok d) :
    List.Forall₂ (fun ns b => Statement.AllHold OptionalLast (P ns) b.paragraphs.flatten)
      (visibleNamespaces namespaces) d.blocks := by
  have hdocument : Yields (declareNamespaces options namespaces) fun d =>
      List.Forall₂ (fun ns b => Statement.AllHold OptionalLast (P ns) b.paragraphs.flatten)
        (visibleNamespaces namespaces) d.blocks :=
    (Yields.forall₂_mapM fun ns _ => (hP ns).yields_declareNamespace (hN ns) (hhere ns)
      (fun p _ => p.type.calls_optionalLast) options).bind_pure fun _ hblocks => hblocks
  exact hdocument state d h

end ApiTypings
