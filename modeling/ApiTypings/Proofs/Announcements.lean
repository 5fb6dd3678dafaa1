import ApiTypings.Declaration.Renderer
import ApiTypings.Proofs.Except
import ApiTypings.Proofs.Steady
/-!
# What a rendering announces

A rendering that succeeds announces every visible symbol once, in the order in which they are
declared (`hears_declareNamespaces`). `Namespace.symbols` lists the symbols of a namespace without
looking at how they are declared.

`Announcing.Hears` says what is heard of a computation that succeeds, and the state it leaves. The
overloads of a function are the only place where the state changes on the way: the first is heard,
those after it are not, and a function that succeeds has at least one
(`Callable.loweredSignatures_ne_nil`).
-/

namespace ApiTypings

namespace Announcing

variable {α β γ : Type}

/-! ### Hearing -/

/-- If a computation succeeds from the state `s`, it announces `symbols` and leaves the state `s'`.
-/
structure Hears (s : RendererState) (x : Announcing α) (symbols : List DeclaredSymbol)
    (s' : RendererState) : Prop where
  symbols_eq : ∀ a, (x s).result = .ok a → (x s).symbols = symbols
  state_eq : ∀ a, (x s).result = .ok a → (x s).state = s'

variable {s s' s'' : RendererState} {x : Announcing α} {symbols symbols' : List DeclaredSymbol}

theorem hears_pure (a : α) : Hears s (pure a) [] s :=
  ⟨fun _ _ => rfl, fun _ _ => rfl⟩

theorem hears_mute (muted : Bool) : Hears s (mute muted) [] { s with muted := muted } :=
  ⟨fun _ _ => rfl, fun _ _ => rfl⟩

theorem hears_announce (scope : List String) (path : String) (kind : SymbolKind)
    (deprecated : Bool) :
    Hears ⟨scope, false⟩ (announce path kind deprecated) [⟨path, kind, deprecated⟩]
      ⟨scope, false⟩ :=
  ⟨fun _ _ => rfl, fun _ _ => rfl⟩

/-- Nothing is heard of what is announced while announcements are muted. -/
theorem hears_announce_muted (scope : List String) (path : String) (kind : SymbolKind)
    (deprecated : Bool) :
    Hears ⟨scope, true⟩ (announce path kind deprecated) [] ⟨scope, true⟩ :=
  ⟨fun _ _ => rfl, fun _ _ => rfl⟩

/-- What is heard of two steps is heard of the first and then of the second. -/
theorem Hears.bind {f : α → Announcing β} (hx : Hears s x symbols s')
    (hf : ∀ a, (x s).result = .ok a → Hears s' (f a) symbols' s'') :
    Hears s (x >>= f) (symbols ++ symbols') s'' := by
  cases hr : (x s).result with
  | error e =>
    have herror : ∀ b, ((x >>= f) s).result ≠ .ok b := by
      intro b hb
      rw [bind_eq_of_error hr] at hb
      cases hb
    exact ⟨fun b hb => absurd hb (herror b), fun b hb => absurd hb (herror b)⟩
  | ok a =>
    have hrun := bind_eq_of_ok (f := f) hr
    rw [hx.state_eq a hr] at hrun
    have hfa := hf a hr
    constructor
    · intro b hb
      rw [hrun] at hb ⊢
      rw [hx.symbols_eq a hr, hfa.symbols_eq b hb]
    · intro b hb
      rw [hrun] at hb ⊢
      exact hfa.state_eq b hb

/-- Nothing is heard of a first step that is silent. -/
theorem Hears.silent_bind {f : α → Announcing β} (hx : Hears s x [] s')
    (hf : ∀ a, (x s).result = .ok a → Hears s' (f a) symbols s'') :
    Hears s (x >>= f) symbols s'' :=
  Hears.bind hx hf

theorem Hears.bind_silent {f : α → Announcing β} (hx : Hears s x symbols s')
    (hf : ∀ a, (x s).result = .ok a → Hears s' (f a) [] s'') :
    Hears s (x >>= f) symbols s'' := by
  have hboth := Hears.bind hx hf
  rwa [List.append_nil] at hboth

/-- A symbol that is announced is heard before everything else. -/
theorem Hears.announce_bind {scope : List String} {path : String} {kind : SymbolKind}
    {deprecated : Bool} {f : Unit → Announcing β} (h : Hears ⟨scope, false⟩ (f ()) symbols s') :
    Hears ⟨scope, false⟩ (announce path kind deprecated >>= f)
      (⟨path, kind, deprecated⟩ :: symbols) s' :=
  Hears.bind (hears_announce scope path kind deprecated) fun _ _ => h

theorem Hears.lift_bind {result : Except DeclarationError α} {f : α → Announcing β}
    (h : ∀ a, result = .ok a → Hears s (f a) symbols s') :
    Hears s (lift result >>= f) symbols s' :=
  Hears.silent_bind (x := lift result) ⟨fun _ _ => rfl, fun _ _ => rfl⟩ h

theorem Hears.scope_bind {f : List String → Announcing β} (h : Hears s (f s.scope) symbols s') :
    Hears s (scope >>= f) symbols s' :=
  Hears.silent_bind (x := scope) ⟨fun _ _ => rfl, fun _ _ => rfl⟩ fun a ha => by
    cases ha
    exact h

theorem Hears.bind_pure (h : Hears s x symbols s') (g : α → β) :
    Hears s (x >>= fun a => pure (g a)) symbols s' :=
  h.bind_silent fun a _ => hears_pure (g a)

theorem Hears.withScope {scope : List String} {muted muted' : Bool}
    (h : Hears ⟨scope, muted⟩ x symbols ⟨scope, muted'⟩) :
    Hears ⟨[], muted⟩ (withScope scope x) symbols ⟨[], muted'⟩ := by
  refine ⟨h.symbols_eq, fun a ha => ?_⟩
  show { (x ⟨scope, muted⟩).state with scope := [] } = _
  rw [h.state_eq a ha]

/-- **Going through a list** is heard of each element in turn. -/
theorem Hears.mapM {f : γ → Announcing β} {heard : γ → List DeclaredSymbol} {xs : List γ}
    (h : ∀ x ∈ xs, Hears s (f x) (heard x) s) : Hears s (xs.mapM f) (xs.flatMap heard) s := by
  induction xs with
  | nil =>
    rw [List.mapM_nil]
    exact hears_pure []
  | cons x xs ih =>
    rw [List.mapM_cons, List.flatMap_cons]
    refine Hears.bind (h x (List.mem_cons_self ..)) fun y _ => ?_
    exact (ih fun z hz => h z (List.mem_cons_of_mem _ hz)).bind_pure _

/-! ### Succeeding -/

/-- **Going through a list succeeds** exactly if every element does by itself, when each leaves the
state as it was. -/
theorem Hears.result_mapM_eq_ok_iff {f : γ → Announcing β} {heard : γ → List DeclaredSymbol}
    (h : ∀ x, Hears s (f x) (heard x) s) {xs : List γ} {ys : List β} :
    (xs.mapM f s).result = .ok ys ↔
      List.Forall₂ (fun x y => (f x s).result = .ok y) xs ys := by
  induction xs generalizing ys with
  | nil =>
    rw [List.mapM_nil, List.forall₂_nil_left_iff]
    exact ⟨fun hnil => (by cases hnil; rfl), fun hnil => hnil ▸ rfl⟩
  | cons x xs ih =>
    rw [List.mapM_cons, result_bind_eq_ok_iff, List.forall₂_cons_left_iff]
    simp only [result_bind_eq_ok_iff]
    constructor
    · rintro ⟨y, hy, ys', hys, hcons⟩
      cases hcons
      rw [(h x).state_eq y hy] at hys
      exact ⟨y, ys', hy, ih.1 hys, rfl⟩
    · rintro ⟨y, ys', hy, hys, rfl⟩
      refine ⟨y, hy, ys', ?_, rfl⟩
      rw [(h x).state_eq y hy]
      exact ih.2 hys

end Announcing

open Announcing

/-! ### Overloads -/

/-- A function that has overloads at all has one. -/
theorem Callable.loweredSignatures_ne_nil {c : Callable Deferred} {path : String}
    {signatures : List (Signature Deferred)} (h : c.loweredSignatures path = .ok signatures) :
    signatures ≠ [] := by
  unfold loweredSignatures expand at h
  obtain ⟨all, -, h⟩ := bind_eq_ok_iff.1 h
  cases all with
  | nil => cases h
  | cons s rest =>
    simp only [List.isEmpty_cons, Bool.false_eq_true, if_false] at h
    split at h
    · cases h
    · cases h
      exact List.cons_ne_nil s rest

variable {scope : List String}

/-- Of overloads after the first nothing is heard. -/
theorem hears_later_overloads (p : Property ApiType) (path : String)
    (signatures : List (Signature Deferred)) (muted : Bool) :
    ∃ muted', Hears ⟨scope, muted⟩ (declareOverloads p path false signatures) []
      ⟨scope, muted'⟩ := by
  induction signatures generalizing muted with
  | nil => exact ⟨muted, hears_pure []⟩
  | cons s rest ih =>
    obtain ⟨muted', hrest⟩ := ih true
    refine ⟨muted', ?_⟩
    unfold declareOverloads
    refine Hears.silent_bind (hears_mute true) fun _ _ => ?_
    refine Hears.silent_bind (hears_announce_muted ..) fun _ _ => ?_
    exact Hears.lift_bind fun lowered _ => hrest.bind_pure _

/-- **Overloads are heard once**, however many there are. -/
theorem hears_overloads (p : Property ApiType) (path : String)
    {signatures : List (Signature Deferred)} (h : signatures ≠ []) :
    ∃ muted, Hears ⟨scope, false⟩ (declareOverloads p path true signatures)
      [⟨path, .function, p.deprecated.isSome⟩] ⟨scope, muted⟩ := by
  obtain ⟨s, rest, rfl⟩ := List.exists_cons_of_ne_nil h
  obtain ⟨muted, hrest⟩ := @hears_later_overloads scope p path rest false
  refine ⟨muted, ?_⟩
  unfold declareOverloads
  refine Hears.silent_bind (hears_mute false) fun _ _ => ?_
  refine Hears.bind_silent (hears_announce ..) fun _ _ => ?_
  exact Hears.lift_bind fun lowered _ => hrest.bind_pure _

/-! ### Symbols -/

/-- What a type is announced as: an object as an interface, or as a class if it has instances. -/
def ApiType.symbolKind : ApiType → SymbolKind
  | .object _ _ _ instanceType => if instanceType.isSome then .classType else .interfaceType
  | _ => .typeAlias

/-- The properties of an object type. -/
def ApiType.objectProperties : ApiType → List (Property ApiType)
  | .object properties _ _ _ => properties
  | _ => []

/-- Whether a type has one value. -/
def ApiType.isLiteral : ApiType → Bool
  | .literal _ => true
  | _ => false

/-- What a value is announced as. A constant that is spelled out is one even if it is an event. -/
def Property.valueKind (p : Property ApiType) : SymbolKind :=
  if p.isConst && p.type.isLiteral then .const
  else if p.isEvent then .event
  else if p.isConst then .const
  else .letVariable

/-- The symbol of a property of a namespace or an object at `parent`. -/
def Property.symbol (parent : String) (kind : SymbolKind) (p : Property ApiType) : DeclaredSymbol :=
  ⟨member parent p.name, kind, p.deprecated.isSome⟩

/-- The symbols of a type of a namespace: its own, and those of the visible properties if it is an
object. -/
def Property.typeSymbols (ns : String) (p : Property ApiType) : List DeclaredSymbol :=
  p.symbol ns p.type.symbolKind ::
    (Property.visible p.type.objectProperties).map fun q =>
      q.symbol (member ns p.name) (memberKind q)

/-- The symbols of a namespace: its own, then its types, its values and its functions. -/
def Namespace.symbols (sorted : Bool) (ns : Namespace) : List DeclaredSymbol :=
  let groups := memberGroups sorted ns.members
  ⟨ns.name, .namespaceBlock, ns.deprecated.isSome⟩ ::
    (groups.1.flatMap (Property.typeSymbols ns.name)
      ++ ((groups.2.1.map fun p => p.symbol ns.name p.valueKind)
        ++ groups.2.2.map (Property.symbol ns.name .function)))

/-! ### Declarations -/

theorem hears_announceMembers (path : String) (properties : List (Property ApiType)) :
    Hears ⟨scope, false⟩ (announceMembers path properties)
      ((Property.visible properties).map fun q => q.symbol path (memberKind q)) ⟨scope, false⟩ := by
  unfold announceMembers
  induction Property.visible properties with
  | nil => exact hears_pure ()
  | cons q qs ih => exact Hears.announce_bind ih

theorem hears_declareScopedType (ns : String) (p : Property ApiType) (templates : Option String) :
    Hears ⟨scope, false⟩ (declareScopedType p (member ns p.name) templates) (p.typeSymbols ns)
      ⟨scope, false⟩ := by
  unfold declareScopedType Property.typeSymbols
  refine Hears.scope_bind ?_
  dsimp only
  split
  next properties index _ instanceType htype =>
    refine Hears.lift_bind fun members _ => ?_
    rw [htype]
    refine Hears.announce_bind ?_
    exact (hears_announceMembers _ properties).bind_pure _
  next t hobject =>
    refine Hears.lift_bind fun type _ => ?_
    have hkind : p.type.symbolKind = .typeAlias ∧ p.type.objectProperties = [] := by
      cases htype : p.type with
      | object properties index templates instanceType =>
        exact absurd htype (hobject properties index templates instanceType)
      | _ => exact ⟨rfl, rfl⟩
    rw [hkind.1, hkind.2]
    exact (hears_announce ..).bind_pure _

theorem hears_declareType (ns : String) (p : Property ApiType) :
    Hears ⟨[], false⟩ (declareType ns p) (p.typeSymbols ns) ⟨[], false⟩ :=
  (hears_declareScopedType ns p _).withScope

/-- The declaration of a value and its symbol are of one kind. -/
theorem valueDeclaration_fst {p : Property ApiType} {path : String} {kind : SymbolKind}
    {declaration : Declaration}
    (h : valueDeclaration scope p path = .ok (kind, declaration)) : kind = p.valueKind := by
  unfold valueDeclaration at h
  unfold Property.valueKind
  split at h
  next value htype hconst =>
    cases h
    rw [htype, hconst]
    rfl
  next hspelled =>
    obtain ⟨lowered, -, h⟩ := bind_eq_ok_iff.1 h
    have hnot : ¬(p.isConst && p.type.isLiteral) = true := by
      intro hboth
      rw [Bool.and_eq_true] at hboth
      cases htype : p.type with
      | literal value => exact hspelled value htype hboth.1
      | _ =>
        rw [htype] at hboth
        cases hboth.2
    rw [if_neg hnot]
    split_ifs at h ⊢ <;> cases h <;> rfl

theorem hears_declareValue (ns : String) (p : Property ApiType) :
    Hears ⟨scope, false⟩ (declareValue ns p) [p.symbol ns p.valueKind] ⟨scope, false⟩ := by
  unfold declareValue
  refine Hears.scope_bind (Hears.lift_bind fun ⟨kind, declaration⟩ h => ?_)
  rw [← valueDeclaration_fst h]
  exact (hears_announce ..).bind_pure _

theorem hears_declareFunction (ns : String) {p : Property ApiType}
    (hp : p.type.isFunction = true) :
    Hears ⟨scope, false⟩ (declareFunction ns p) [p.symbol ns .function] ⟨scope, false⟩ := by
  unfold declareFunction
  refine Hears.scope_bind ?_
  obtain ⟨c, hc⟩ : ∃ c, p.type.lowerCallable? scope (member ns p.name) = some c := by
    cases htype : p.type with
    | function parameters returns completion callbackOnly => exact ⟨_, rfl⟩
    | _ =>
      rw [htype] at hp
      cases hp
  simp only [hc]
  refine Hears.lift_bind fun signatures hsignatures => ?_
  obtain ⟨muted, hoverloads⟩ := @hears_overloads scope p (member ns p.name) _
    (Callable.loweredSignatures_ne_nil hsignatures)
  refine Hears.bind_silent hoverloads fun statements _ => ?_
  exact (hears_mute false).bind_pure _

/-- The groups of the members of a namespace are types, values and functions. -/
theorem mem_memberGroups (sorted : Bool) (members : List (Property ApiType)) :
    (∀ p ∈ (memberGroups sorted members).1, p.isType = true) ∧
    (∀ p ∈ (memberGroups sorted members).2.1, p.isType = false ∧ p.type.isFunction = false) ∧
    ∀ p ∈ (memberGroups sorted members).2.2, p.isType = false ∧ p.type.isFunction = true := by
  have horder : ∀ (ps : List (Property ApiType)) (p : Property ApiType),
      p ∈ (if sorted then sortByName else id) ps ↔ p ∈ ps := by
    intro ps p
    cases sorted with
    | false => exact Iff.rfl
    | true => exact List.mem_mergeSort
  simp only [memberGroups, horder, List.mem_filter, Bool.not_eq_true']
  exact ⟨fun p h => h.2, fun p h => ⟨h.1.2, h.2⟩, fun p h => ⟨h.1.2, h.2⟩⟩

theorem hears_declareNamespace (options : RenderOptions) (ns : Namespace) :
    Hears {} (declareNamespace options ns) (ns.symbols options.sortMembers) {} := by
  unfold declareNamespace declareMembers Namespace.symbols
  have htypes := Hears.mapM fun p (_ : p ∈ (memberGroups options.sortMembers ns.members).1) =>
    hears_declareType ns.name p
  have hvalues := Hears.mapM fun p (_ : p ∈ (memberGroups options.sortMembers ns.members).2.1) =>
    @hears_declareValue [] ns.name p
  have hfunctions := Hears.mapM fun p (hp : p ∈ (memberGroups options.sortMembers ns.members).2.2) =>
    @hears_declareFunction [] ns.name p
      ((mem_memberGroups options.sortMembers ns.members).2.2 p hp).2
  rw [← List.map_eq_flatMap] at hvalues hfunctions
  dsimp only
  refine Hears.announce_bind ?_
  refine Hears.bind htypes fun _ _ => ?_
  refine Hears.bind hvalues fun _ _ => ?_
  exact hfunctions.bind_pure _

/-- **What is heard of a rendering that succeeds**: the symbols of the namespaces that have anything
to declare, in the order of their names. -/
theorem hears_declareNamespaces (options : RenderOptions) (namespaces : List Namespace) :
    Hears {} (declareNamespaces options namespaces)
      ((visibleNamespaces namespaces).flatMap (Namespace.symbols options.sortMembers)) {} :=
  (Hears.mapM fun ns _ => hears_declareNamespace options ns).bind_pure _

end ApiTypings
