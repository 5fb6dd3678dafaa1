import ApiTypings.Proofs.Announcements
import ApiTypings.Proofs.Compilation
/-!
# The visible symbols

What a compilation announces is said here of the namespaces as they were before, with nothing but
the answers of the resolver: the namespaces that are declared, and of each the properties that are
shown (`Namespace.visibleSymbols`). A symbol is deprecated if it is so itself or if anything that it
is nested in is.

Pruning comes first and announcing second, and each is known by itself: pruning keeps what was shown
(`ApiType.Kept`), and announcing tells all that is left (`hears_declareNamespaces`).
-/

namespace ApiTypings

/-! ### The enumeration -/

/-- The symbol of a property in a namespace or an object at `parent`, which is `deprecated` or not.
-/
def Property.symbolIn (parent : String) (deprecated : Bool) (kind : SymbolKind)
    (p : Property ApiType) : DeclaredSymbol :=
  ⟨member parent p.name, kind, p.deprecated.isSome || deprecated⟩

/-- The visible symbols of a type of a namespace: its own, and those of the properties that are
shown if it is an object. -/
def Property.visibleTypeSymbols (r : Resolver) (ns : String) (deprecated : Bool)
    (p : Property ApiType) : List DeclaredSymbol :=
  p.symbolIn ns deprecated p.type.symbolKind ::
    (r.shownIn (member ns p.name) p.type.objectProperties).map fun q =>
      q.symbolIn (member ns p.name) (p.deprecated.isSome || deprecated) (memberKind q)

/-- The visible symbols of a namespace that is declared: its own, then its types, its values and its
functions. -/
def Namespace.visibleSymbols (r : Resolver) (sorted : Bool) (ns : Namespace) :
    List DeclaredSymbol :=
  let shown := r.shownIn ns.name ns.members
  let order := if sorted then sortByName else id
  let types := shown.filter (·.isType)
  let others := shown.filter (!·.isType)
  let deprecated := ns.deprecated.isSome
  ⟨ns.name, .namespaceBlock, deprecated⟩ ::
    ((order types).flatMap (Property.visibleTypeSymbols r ns.name deprecated)
      ++ (order (others.filter (!·.type.isFunction))).map
        (fun p => p.symbolIn ns.name deprecated p.valueKind)
      ++ (order (others.filter (·.type.isFunction))).map
        (Property.symbolIn ns.name deprecated .function))

/-! ### What is kept is announced alike -/

namespace ApiType

variable {r : Resolver} {s : Option Surroundings} {parent : Surroundings} {t u : ApiType}
  {p q : Property ApiType}

/-- Of an object those properties are left that were shown. -/
theorem Prunes.objectProperties (h : Prunes r (some parent) t u) :
    List.Forall₂ (Kept r parent) (r.shownIn parent.path t.objectProperties) u.objectProperties := by
  obtain ⟨t', ht, rfl⟩ := h
  cases annotated_of_annotate ht with
  | object hp =>
    exact forall₂_kept (annotateProperties_eq_ok_iff.2 hp)
  | primitive | literal | number | reference | sequence | intersection | choices | function =>
    exact .nil

theorem Prunes.isFunction_eq (h : Prunes r s t u) : u.isFunction = t.isFunction :=
  h.outside_eq (fun t => by cases t <;> rfl) fun t => by cases t <;> rfl

theorem Prunes.isLiteral_eq (h : Prunes r s t u) : u.isLiteral = t.isLiteral :=
  h.outside_eq (fun t => by cases t <;> rfl) fun t => by cases t <;> rfl

theorem Prunes.symbolKind_eq (h : Prunes r s t u) : u.symbolKind = t.symbolKind :=
  h.outside_eq (fun t => by cases t <;> rfl) fun t => by cases t <;> rfl

namespace Kept

/-- A trait that no verdict changes is kept. -/
theorem trait_eq {α : Type} (f : Traits → α) (hf : ∀ v old, f (Verdict.traits v old) = f old)
    (h : Kept r parent p q) : f q.toTraits = f p.toTraits := by
  obtain ⟨a, htraits, -⟩ := h.exists_below
  rw [htraits, hf]

theorem isType_eq (h : Kept r parent p q) : q.isType = p.isType :=
  h.trait_eq Traits.isType fun v _ => by cases v <;> rfl

theorem isEvent_eq (h : Kept r parent p q) : q.isEvent = p.isEvent :=
  h.trait_eq Traits.isEvent fun v _ => by cases v <;> rfl

theorem isConst_eq (h : Kept r parent p q) : q.isConst = p.isConst :=
  h.trait_eq Traits.isConst fun v _ => by cases v <;> rfl

theorem mayBeMethod_eq (h : Kept r parent p q) : q.mayBeMethod = p.mayBeMethod :=
  h.trait_eq Traits.mayBeMethod fun v _ => by cases v <;> rfl

/-- What is kept is deprecated if it was, or if what it is nested in is. -/
theorem deprecated_eq (h : Kept r parent p q) :
    q.deprecated.isSome = (p.deprecated.isSome || parent.deprecated.isSome) := by
  obtain ⟨a, htraits, -⟩ := h.exists_below
  rw [htraits]
  show (p.deprecated <|> parent.deprecated).isSome = _
  cases p.deprecated <;> rfl

theorem isFunction_eq (h : Kept r parent p q) : q.type.isFunction = p.type.isFunction := by
  obtain ⟨a, -, hprunes⟩ := h.exists_below
  exact hprunes.isFunction_eq

theorem memberKind_eq (h : Kept r parent p q) : memberKind q = memberKind p := by
  unfold memberKind
  rw [h.isEvent_eq, h.isFunction_eq, h.mayBeMethod_eq]

theorem valueKind_eq (h : Kept r parent p q) : q.valueKind = p.valueKind := by
  obtain ⟨a, -, hprunes⟩ := h.exists_below
  unfold Property.valueKind
  rw [h.isEvent_eq, h.isConst_eq, hprunes.isLiteral_eq]

/-- A property that is kept has the symbol that it had, and is deprecated with its parent. -/
theorem symbol_eq (h : Kept r parent p q) (kind : SymbolKind) :
    q.symbol parent.path kind = p.symbolIn parent.path parent.deprecated.isSome kind := by
  unfold Property.symbol Property.symbolIn
  rw [h.name_eq, h.deprecated_eq]

/-- Nothing that is kept is hidden. -/
theorem visible_eq {ps qs : List (Property ApiType)} (h : List.Forall₂ (Kept r parent) ps qs) :
    Property.visible qs = qs := by
  refine List.filter_eq_self.2 fun q hq => ?_
  obtain ⟨p, -, hpq⟩ := exists_left_of_mem h hq
  exact congrArg Bool.not hpq.nodoc_eq

/-- A type that is kept has its visible symbols. -/
theorem typeSymbols_eq (h : Kept r parent p q) :
    q.typeSymbols parent.path = p.visibleTypeSymbols r parent.path parent.deprecated.isSome := by
  obtain ⟨a, -, hprunes⟩ := h.exists_below
  have hproperties := hprunes.objectProperties
  unfold Property.typeSymbols Property.visibleTypeSymbols
  rw [h.symbol_eq, hprunes.symbolKind_eq, visible_eq hproperties, h.name_eq]
  refine congrArg _ (map_eq_of_forall₂ hproperties fun p' _ q' hkept => ?_)
  rw [hkept.memberKind_eq, hkept.symbol_eq]
  simp only [Option.orElse_eq_orElse, Option.orElse_eq_or, Option.isSome_or]

end Kept

end ApiType

/-! ### Namespaces -/

variable {r : Resolver} {ns n : Namespace} {parent : Surroundings}

/-- The order of the members of a namespace depends on their names only. -/
theorem forall₂_order (sorted : Bool) {ps qs : List (Property ApiType)}
    (h : List.Forall₂ (ApiType.Kept r parent) ps qs) :
    List.Forall₂ (ApiType.Kept r parent) ((if sorted then sortByName else id) ps)
      ((if sorted then sortByName else id) qs) := by
  cases sorted with
  | false => exact h
  | true => exact forall₂_mergeSort h fun p q hpq => hpq.name_eq.symm

/-- A namespace that is kept has its visible symbols. -/
theorem Namespace.Kept.symbols_eq (h : ns.Kept r n) (sorted : Bool) :
    n.symbols sorted = ns.visibleSymbols r sorted := by
  obtain ⟨a, hmembers⟩ := h.exists_members
  -- The groups of what is kept are what is kept of the groups.
  have htypes := forall₂_filter hmembers fun p q hpq => hpq.isType_eq
  have hothers := forall₂_filter hmembers fun p q hpq => congrArg Bool.not hpq.isType_eq
  have hvalues := forall₂_filter hothers fun p q hpq => congrArg Bool.not hpq.isFunction_eq
  have hfunctions := forall₂_filter hothers fun p q hpq => hpq.isFunction_eq
  unfold Namespace.symbols Namespace.visibleSymbols memberGroups
  rw [ApiType.Kept.visible_eq hmembers, h.name_eq, h.deprecated_eq]
  dsimp only
  rw [List.append_assoc]
  refine congrArg (List.cons _) (congrArg₂ (· ++ ·) ?types (congrArg₂ (· ++ ·) ?values ?functions))
  case types =>
    exact flatMap_eq_of_forall₂ (forall₂_order sorted htypes) fun p _ q hpq => hpq.typeSymbols_eq
  case values =>
    refine map_eq_of_forall₂ (forall₂_order sorted hvalues) fun p _ q hpq => ?_
    rw [hpq.valueKind_eq]
    exact hpq.symbol_eq _
  case functions =>
    exact map_eq_of_forall₂ (forall₂_order sorted hfunctions) fun p _ q hpq => hpq.symbol_eq _

/-- What is announced of what is left are the visible symbols of what is declared. -/
theorem Resolver.symbols_declared {namespaces pruned : List Namespace} (sorted : Bool)
    (h : List.Forall₂ (fun ns n => Namespace.prune ns r = .ok n) namespaces pruned) :
    (visibleNamespaces pruned).flatMap (Namespace.symbols sorted) =
      (r.declared namespaces).flatMap (Namespace.visibleSymbols r sorted) :=
  flatMap_eq_of_forall₂ (forall₂_declared h) fun _ _ _ hkept => hkept.2.symbols_eq sorted

/-! ### Compilations -/

namespace Compiler

/-- **The announced symbols are exactly the visible ones**: a compilation that succeeds announces
the visible symbols of every namespace that is declared, each of them once, in the order of the
names of the namespaces. -/
theorem compile_announces {c : Compiler} {namespaces : List Namespace} {text : String}
    {table : SymbolTable} (h : c.compile namespaces = .ok (text, table)) :
    table.symbols = (c.resolver.declared namespaces).flatMap
      (Namespace.visibleSymbols c.resolver c.render.sortMembers) := by
  obtain ⟨pruned, document, hpruned, hdocument, -, rfl⟩ := compile_eq_ok_iff.1 h
  rw [(hears_declareNamespaces c.render pruned).symbols_eq document hdocument]
  exact Resolver.symbols_declared c.render.sortMembers hpruned

/-- A namespace of which nothing is shown, and a deprecated one with a type, a value and a function
that has two overloads. -/
def twoNamespaces : List Namespace :=
  [{ name := "b", members := [{ nodoc := true, name := "v", type := .any }] },
    { name := "a"
      deprecated := some "Use b."
      members :=
        [.plain "f" (.function [] none (some (.plain "callback" (.function [] none none false)))
            false),
          { isType := true
            name := "T"
            type := .object [.plain "secret" .any, .plain "p" .any] none none none },
          .plain "v" .any] }]

/-- Features that make a property of the type internal. -/
def withInternalProperty : Compiler where
  resolver := { table := ⟨[("api:a", [{}]), ("api:b", [{}]),
    ("api:a.T.secret", [{ internal := some true }])]⟩ }

/-- What is hidden or internal is not announced, and the function is announced once. -/
theorem compile_twoNamespaces : ∃ text table,
    withInternalProperty.compile twoNamespaces = .ok (text, table) ∧
      table.symbols = [⟨"a", .namespaceBlock, true⟩, ⟨"a.T", .interfaceType, true⟩,
        ⟨"a.T.p", .property, true⟩, ⟨"a.v", .letVariable, true⟩, ⟨"a.f", .function, true⟩] ∧
      table.symbols = (withInternalProperty.resolver.declared twoNamespaces).flatMap
        (Namespace.visibleSymbols withInternalProperty.resolver false) := by
  have hrun : (withInternalProperty.compile twoNamespaces).map (·.2.symbols) =
      .ok [⟨"a", .namespaceBlock, true⟩, ⟨"a.T", .interfaceType, true⟩,
        ⟨"a.T.p", .property, true⟩, ⟨"a.v", .letVariable, true⟩, ⟨"a.f", .function, true⟩] := by
    decide +kernel
  obtain ⟨⟨text, table⟩, h, hsymbols⟩ := map_eq_ok_iff.1 hrun
  exact ⟨text, table, h, hsymbols, compile_announces h⟩

end Compiler

end ApiTypings
