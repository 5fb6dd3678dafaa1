import ApiTypings.Proofs.Lowered
import ApiTypings.Proofs.TypeText
import ApiTypings.Proofs.Unambiguity
/-!
# How the operands of a type are grouped

`ApiType.Groups` gives the tree that the text of a type has to have, rule by rule, from the type of the
model and from what takes its place at a path (`typeOverride?`). It says nothing of parentheses.

Main statement: whatever a type is lowered to, its text has this tree and no other
(`ApiType.lower_groups`). So no suffix, `|`, `&` or `=>` takes an operand that belongs to another.
-/

namespace ApiTypings

/-! ### Trees -/

namespace TypeTree

/-- The tree of the type of what every item admits. -/
def allOf : List TypeTree → TypeTree
  | [] => atom "unknown"
  | [only] => only
  | items => intersection items

/-- The tree of the type of what one of the items admits. -/
def oneOf : List TypeTree → TypeTree
  | [] => atom "never"
  | [only] => only
  | items => union items

/-- The tree of the type of arrays of at least `min` elements. -/
def atLeast (element : TypeTree) (min : ℕ) : TypeTree :=
  if min = 0 then array element
  else tuple (List.replicate (Nat.min min TypeExpr.maxTupleExpansion) element) (some element)

/-- The tree of the type of arrays of at least `min` and at most `max` elements: one of the tuples of
these lengths, if they are not too many. -/
def bounded (element : TypeTree) (min : ℕ) : Option ℕ → TypeTree
  | none => element.atLeast min
  | some max =>
    if min ≤ max ∧ max - min < TypeExpr.maxTupleExpansion then
      oneOf ((List.range' min (max - min + 1)).map fun n => tuple (List.replicate n element) none)
    else element.atLeast min

/-- The tree of a type or `undefined`. -/
def orUndefined (t : TypeTree) : TypeTree :=
  union [t, atom "undefined"]

end TypeTree

/-! ### Grouping -/

namespace ApiType

section

variable (unit : String) (level : ℕ) (scope : List String)

mutual

/-- The tree of a type at a path is that of what takes its place there, or its own. -/
inductive Groups : String → ApiType → TypeTree → Prop
  | replaced {path t t' tree} (hreplaced : typeOverride? path t = some t')
      (h : GroupsItself path t' tree) : Groups path t tree
  | kept {path t tree} (hkept : typeOverride? path t = none) (h : GroupsItself path t tree) :
      Groups path t tree

/-- The tree of a type that nothing takes the place of. Objects are atoms, and so are functions that
are written as objects. -/
inductive GroupsItself : String → ApiType → TypeTree → Prop
  | primitive {path word} : GroupsItself path (.primitive word) (.atom word.keyword)
  | literal {path value} : GroupsItself path (.literal value) (.atom value.text)
  | number {path integer minimum maximum} :
      GroupsItself path (.number integer minimum maximum) (.atom "number")
  | reference {path target arguments trees} (h : GroupsItems path arguments trees) :
      GroupsItself path (.reference target arguments) (.name target.name trees)
  | sequence {path element tree min max} (h : Groups path element tree) :
      GroupsItself path (.sequence element min max) (tree.bounded min max)
  | object {path properties index templates instanceType e}
      (h : lower scope path (.object properties index templates instanceType) = .ok e) :
      GroupsItself path (.object properties index templates instanceType)
        (.atom (e.text unit level false))
  | intersection {path items trees} (h : GroupsItems path items trees) :
      GroupsItself path (.intersection items) (.allOf trees)
  | choices {path items trees} (h : GroupsItems path items trees) :
      GroupsItself path (.choices items) (.oneOf trees)
  | arrow {path parameters returns callbackOnly trees tree}
      (h : GroupsParameters path (Property.visible parameters) trees)
      (hreturns : GroupsResult path returns tree) :
      GroupsItself path (.function parameters returns none callbackOnly) (.arrow trees tree)
  | callable {path parameters returns callback callbackOnly e}
      (h : lower scope path (.function parameters returns (some callback) callbackOnly) = .ok e) :
      GroupsItself path (.function parameters returns (some callback) callbackOnly)
        (.atom (e.text unit level false))

/-- The trees of types at one path. -/
inductive GroupsItems : String → List ApiType → List TypeTree → Prop
  | nil {path} : GroupsItems path [] []
  | cons {path t ts tree trees} (h : Groups path t tree) (hitems : GroupsItems path ts trees) :
      GroupsItems path (t :: ts) (tree :: trees)

/-- The trees of the parameters of an arrow type. A left-optional one is required and may be
`undefined`. -/
inductive GroupsParameters : String → List (Property ApiType) → List (Parameter TypeTree) → Prop
  | nil {path} : GroupsParameters path [] []
  | left {path p ps tree trees} (hleft : Property.isLeftOptional p ps = true)
      (h : Groups (member path p.name) p.type tree) (hparameters : GroupsParameters path ps trees) :
      GroupsParameters path (p :: ps) (⟨parameterName p.name, false, tree.orUndefined⟩ :: trees)
  | other {path p ps tree trees} (hother : Property.isLeftOptional p ps = false)
      (h : Groups (member path p.name) p.type tree) (hparameters : GroupsParameters path ps trees) :
      GroupsParameters path (p :: ps) (⟨parameterName p.name, p.optional, tree⟩ :: trees)

/-- The tree of the result of an arrow type. -/
inductive GroupsResult : String → Option (Property ApiType) → TypeTree → Prop
  | none {path} : GroupsResult path none (.atom "void")
  | some {path p tree} (h : Groups (member path p.name) p.type tree) :
      GroupsResult path (some p) tree

end

end

end ApiType

/-! ### Trees of expressions -/

namespace TypeExpr

variable {unit : String} {level : ℕ}

theorem tree_allOf (items : List TypeExpr) :
    tree unit level (allOf items) = .allOf (trees unit level items) := by
  cases items with
  | nil => rfl
  | cons e items => cases items <;> rfl

theorem tree_oneOf (items : List TypeExpr) :
    tree unit level (oneOf items) = .oneOf (trees unit level items) := by
  cases items with
  | nil => rfl
  | cons e items => cases items <;> rfl

theorem tree_tuple_replicate (e : TypeExpr) (n : ℕ) :
    tree unit level (tuple (List.replicate n e) none) =
      .tuple (List.replicate n (e.tree unit level)) none := by
  rw [tree, trees_eq_map, List.map_replicate]

theorem tree_boundedArray (e : TypeExpr) (min : ℕ) (max : Option ℕ) :
    tree unit level (e.boundedArray min max) = (e.tree unit level).bounded min max := by
  have hopen : tree unit level (if min = 0 then array e
      else tuple (List.replicate (Nat.min min maxTupleExpansion) e) (some e)) =
        (e.tree unit level).atLeast min := by
    unfold TypeTree.atLeast
    split
    · rfl
    · rw [tree, trees_eq_map, List.map_replicate]
  have htuples (count : ℕ) : trees unit level ((List.range count).map fun extra =>
      tuple (List.replicate (min + extra) e) none) =
        (List.range' min count).map fun n => .tuple (List.replicate n (e.tree unit level)) none := by
    rw [trees_eq_map, List.map_map, List.range'_eq_map_range, List.map_map]
    exact List.map_congr_left fun extra _ => tree_tuple_replicate e (min + extra)
  unfold boundedArray TypeTree.bounded
  cases max with
  | none => exact hopen
  | some max =>
    dsimp only
    split
    · rw [tree_oneOf, htuples]
    · exact hopen

end TypeExpr

namespace ApiType

open TypeExpr

variable {unit : String} {level : ℕ} {scope : List String} {path : String} {t : ApiType} {e : TypeExpr}

/-! ### Replacements -/

/-- The tree of what a type at a path is lowered to, whatever the path. -/
def GroupsAsLowered (unit : String) (level : ℕ) (scope : List String) (t : ApiType) : Prop :=
  ∀ path e, t.lower scope path = .ok e → Groups unit level scope path t (e.tree unit level)

/-- A template parameter is a name without arguments. -/
theorem groupsItself_template {name : String} (h : lowerTemplate scope path name = .ok e) :
    GroupsItself unit level scope path (.templateParameter name) (e.tree unit level) := by
  unfold lowerTemplate at h
  split at h
  · cases h
    exact .reference .nil
  · cases h

theorem groups_template {name : String} (hreplacement : Replacement.find? path t = some (.parameter name))
    (h : lowerTemplate scope path name = .ok e) :
    Groups unit level scope path t (e.tree unit level) := by
  have hreplaced : typeOverride? path t = some (.templateParameter name) := by
    rw [typeOverride?, hreplacement]
    rfl
  exact .replaced hreplaced (groupsItself_template h)

/-- Only a template parameter takes the place of a type that is no reference. -/
theorem find?_eq_none (ht : ∀ target arguments, t ≠ .reference target arguments)
    (h : ∀ name, Replacement.find? path t ≠ some (.parameter name)) :
    Replacement.find? path t = none := by
  unfold Replacement.find? at h ⊢
  split
  next slot hslot =>
    rw [hslot] at h
    exact absurd rfl (h slot.parameter)
  next =>
    split
    next => exact absurd rfl (ht _ _)
    next => rfl

/-- The tree of a type that a template parameter can take the place of. -/
theorem groups_unlessParameter {otherwise : Lowered}
    (ht : ∀ target arguments, t ≠ .reference target arguments)
    (hotherwise : otherwise = .ok e → GroupsItself unit level scope path t (e.tree unit level))
    (h : lowerUnlessParameter scope path t otherwise = .ok e) :
    Groups unit level scope path t (e.tree unit level) := by
  unfold lowerUnlessParameter at h
  split at h
  next name hname => exact groups_template hname h
  next hother =>
    refine .kept ?_ (hotherwise h)
    rw [typeOverride?, find?_eq_none ht hother]
    rfl

/-! ### Lists -/

theorem groupsItems {ts : List ApiType} (hts : ∀ t ∈ ts, GroupsAsLowered unit level scope t)
    {es : List TypeExpr} (h : lowerItems scope path ts = .ok es) :
    GroupsItems unit level scope path ts (trees unit level es) := by
  induction ts generalizing es with
  | nil =>
    cases h
    exact .nil
  | cons t ts ih =>
    obtain ⟨ht, hrest⟩ := List.forall_mem_cons.1 hts
    obtain ⟨e, he, h⟩ := bind_eq_ok_iff.1 h
    obtain ⟨es', hes', h⟩ := bind_eq_ok_iff.1 h
    cases h
    exact .cons (ht path e he) (ih hrest hes')

theorem groupsParameters {ps : List (Property ApiType)}
    (hps : ∀ p ∈ ps, GroupsAsLowered unit level scope p.type) {qs : List (Parameter TypeExpr)}
    (h : arrowParameters (ps.map fun p => p.deferred scope (member path p.name)) = .ok qs) :
    GroupsParameters unit level scope path ps (parameterTrees unit level qs) := by
  induction ps generalizing qs with
  | nil =>
    cases h
    exact .nil
  | cons p ps ih =>
    obtain ⟨hp, hrest⟩ := List.forall_mem_cons.1 hps
    rw [List.map_cons, arrowParameters] at h
    obtain ⟨q, hq, h⟩ := bind_eq_ok_iff.1 h
    obtain ⟨qs', hqs', h⟩ := bind_eq_ok_iff.1 h
    cases h
    obtain ⟨type, htype, hq⟩ := bind_eq_ok_iff.1 hq
    cases hq
    have hgroups : Groups unit level scope (member path p.name) p.type (type.tree unit level) :=
      hp _ type htype
    have hleft := @Property.isLeftOptional_map Deferred ApiType
      (fun p => p.deferred scope (member path p.name)) (fun _ => rfl) p ps
    rw [hleft]
    by_cases hp : p.isLeftOptional ps = true
    · rw [if_pos hp]
      exact .left hp hgroups (ih hrest hqs')
    · rw [if_neg hp]
      exact .other (Bool.of_not_eq_true hp) hgroups (ih hrest hqs')

/-! ### Types -/

theorem groups_primitive (word : Primitive) : GroupsAsLowered unit level scope (.primitive word) := by
  intro path e h
  refine groups_unlessParameter (fun _ _ heq => by cases heq) (fun he => ?_) h
  cases he
  exact .primitive

/-- The type `any` where it is the argument of what it is applied to. -/
theorem groups_any (h : lowerAny scope path = .ok e) :
    Groups unit level scope path any (e.tree unit level) :=
  groups_primitive .any path e h

theorem finalTarget_check {target final : Reference}
    (h : finalTarget.check scope path target = .ok final) : final = target := by
  unfold finalTarget.check at h
  split at h
  · cases h
  · cases h
    rfl

theorem groups_reference {target : Reference} {arguments : List ApiType}
    (harguments : ∀ t ∈ arguments, GroupsAsLowered unit level scope t) :
    GroupsAsLowered unit level scope (.reference target arguments) := by
  intro path e h
  unfold lower at h
  cases hreplacement : Replacement.find? path (.reference target arguments) with
  | none =>
    rw [hreplacement] at h
    obtain ⟨final, hfinal, h⟩ := bind_eq_ok_iff.1 h
    obtain ⟨items, hitems, h⟩ := bind_eq_ok_iff.1 h
    cases h
    cases finalTarget_check hfinal
    have hkept : typeOverride? path (.reference target arguments) = none := by
      rw [typeOverride?, hreplacement]
      rfl
    exact .kept hkept (.reference (groupsItems harguments hitems))
  | some replacement =>
    rw [hreplacement] at h
    have hreplaced : typeOverride? path (.reference target arguments) =
        some (replacement.apply (.reference target arguments)) := by
      rw [typeOverride?, hreplacement]
      rfl
    -- A template parameter and an application to `any` drop the arguments; a rename keeps them.
    cases replacement with
    | parameter name => exact groups_template hreplacement h
    | applyToAny =>
      obtain ⟨argument, hargument, h⟩ := bind_eq_ok_iff.1 h
      cases h
      exact .replaced hreplaced (.reference (.cons (groups_any hargument) .nil))
    | rename name =>
      obtain ⟨final, hfinal, h⟩ := bind_eq_ok_iff.1 h
      obtain ⟨items, hitems, h⟩ := bind_eq_ok_iff.1 h
      cases h
      cases finalTarget_check hfinal
      exact .replaced hreplaced (.reference (groupsItems harguments hitems))

theorem groups_function {parameters : List (Property ApiType)}
    {returns completion : Option (Property ApiType)} {callbackOnly : Bool}
    (hparameters : ∀ p ∈ parameters, GroupsAsLowered unit level scope p.type)
    (hreturns : ∀ p ∈ returns, GroupsAsLowered unit level scope p.type) :
    GroupsAsLowered unit level scope (.function parameters returns completion callbackOnly) := by
  intro path e h
  refine groups_unlessParameter (fun _ _ heq => by cases heq) (fun he => ?_) h
  cases completion with
  | none =>
    obtain ⟨ps, hps, he⟩ := bind_eq_ok_iff.1 he
    rw [lowerVisible_eq_map] at hps
    have htrees := groupsParameters
      (fun p hp => hparameters p (Property.mem_of_mem_visible hp)) hps
    cases returns with
    | none =>
      cases he
      exact .arrow htrees .none
    | some result =>
      obtain ⟨type, htype, he⟩ := bind_eq_ok_iff.1 he
      cases he
      exact .arrow htrees (.some (hreturns result rfl _ type htype))
  | some callback =>
    -- The overloads are written as an object, which is an atom.
    have hobject : ∃ members, e = .object members := by
      obtain ⟨signatures, -, he⟩ := bind_eq_ok_iff.1 he
      obtain ⟨members, -, he⟩ := bind_eq_ok_iff.1 he
      cases he
      exact ⟨members, rfl⟩
    obtain ⟨members, rfl⟩ := hobject
    exact .callable h

/-- **What a type is lowered to is grouped** like the type after its replacement. -/
theorem groups_lower (t : ApiType) : GroupsAsLowered unit level scope t := by
  induction t using nesting_induction with
  | step t hparts hnested =>
    cases t with
    | primitive word => exact groups_primitive word
    | literal value =>
      intro path e h
      refine groups_unlessParameter (fun _ _ heq => by cases heq) (fun he => ?_) h
      cases he
      exact .literal
    | number integer minimum maximum =>
      intro path e h
      refine groups_unlessParameter (fun _ _ heq => by cases heq) (fun he => ?_) h
      cases he
      exact .number
    | reference target arguments => exact groups_reference hparts
    | sequence element min max =>
      intro path e h
      refine groups_unlessParameter (fun _ _ heq => by cases heq) (fun he => ?_) h
      obtain ⟨element', helement, rfl⟩ := map_eq_ok_iff.1 he
      rw [tree_boundedArray]
      exact .sequence (hparts element (List.mem_singleton_self _) path element' helement)
    | object properties index templates instanceType =>
      intro path e h
      refine groups_unlessParameter (fun _ _ heq => by cases heq) (fun he => ?_) h
      have hobject : ∃ members, e = .object members := by
        obtain ⟨own, -, he⟩ := bind_eq_ok_iff.1 he
        obtain ⟨further, -, he⟩ := bind_eq_ok_iff.1 he
        cases he
        exact ⟨own ++ further, rfl⟩
      obtain ⟨members, rfl⟩ := hobject
      exact .object h
    | intersection items =>
      intro path e h
      refine groups_unlessParameter (fun _ _ heq => by cases heq) (fun he => ?_) h
      obtain ⟨items', hitems, rfl⟩ := map_eq_ok_iff.1 he
      rw [tree_allOf]
      exact .intersection (groupsItems hparts hitems)
    | choices items =>
      intro path e h
      refine groups_unlessParameter (fun _ _ heq => by cases heq) (fun he => ?_) h
      obtain ⟨items', hitems, rfl⟩ := map_eq_ok_iff.1 he
      rw [tree_oneOf]
      exact .choices (groupsItems hparts hitems)
    | function parameters returns completion callbackOnly =>
      refine groups_function (fun p hp => hnested p ?_) (fun p hp => hnested p ?_)
      · exact List.mem_append_left _ (List.mem_append_left _ hp)
      · exact List.mem_append_left _ (List.mem_append_right _ (Option.mem_toList.2 hp))

/-! ### Texts -/

/-- The text is spelled by tokens from which `tree` can be read as a whole, and no other tree as a type
of any category. -/
def HasTree (c : TypeCategory) (tree : TypeTree) (text : String) : Prop :=
  ∃ tokens, text = spell tokens ∧ Reads (.one c tree) tokens [] ∧
    ∀ c' tree', Reads (.one c' tree') tokens [] → tree' = tree

theorem hasTree_of_spells {c : TypeCategory} {tree : TypeTree} {text : String}
    (h : Spells (.one c tree) text) : HasTree c tree text := by
  obtain ⟨tokens, rfl, htokens⟩ := h
  have hreads : Reads (.one c tree) tokens [] := by simpa using htokens []
  exact ⟨tokens, rfl, hreads, fun c' tree' h' => hreads.asType.unique_whole h'.asType⟩

/-- **The operands of a type are grouped as in the type.** If a type at a path can be lowered, then there
is a tree by which its operands are grouped, after what replaces types at the path, such that:

* the text for a tight place has this tree as an operand, and the other text as a type;
* the text of an optional value has the tree of the type or `undefined`. -/
theorem lower_groups (h : t.lower scope path = .ok e) (unit : String) (level : ℕ) :
    ∃ tree, Groups unit level scope path t tree ∧
      HasTree .operand tree (e.text unit level true) ∧
      HasTree .type tree (e.text unit level false) ∧
      HasTree .type tree.orUndefined (e.orUndefined.text unit level false) := by
  have hspells : e.SpellsTree := spells_of_lower h
  have hundefined : e.orUndefined.SpellsTree := keptByLowering_spellsTree.orUndefined hspells
  exact ⟨e.tree unit level, groups_lower t path e h,
    hasTree_of_spells (hspells unit level true), hasTree_of_spells (hspells unit level false),
    hasTree_of_spells (hundefined unit level false)⟩

/-- Arrays of functions and of tuples, with unions and intersections inside of both. -/
def compound : ApiType :=
  .sequence (.choices [
    .function [
      { optional := true, name := "key", type := .choices [.primitive .string, .literal (.boolean true)] },
      .plain "node" (.intersection [.named "A", .sequence (.choices [.named "B", .any]) 0 none])]
      none none false,
    .sequence (.choices [.named "C", .named "D"]) 1 none]) 0 none

/-- Parentheses stand where an operand would be taken by another: the union in the tuple has them before
the brackets, but not where it is an element. -/
theorem lower_compound :
    ∃ e, compound.lower [] "x.f" = .ok e ∧
      e.text "  " 0 false = "(((key: (string | true) | undefined, node: A & (B | any)[]) => void)" ++
        " | [C | D, ...(C | D)[]])[]" ∧
      ∃ tree, Groups "  " 0 [] "x.f" compound tree ∧
        HasTree .operand tree (e.text "  " 0 true) ∧
        HasTree .type tree (e.text "  " 0 false) ∧
        HasTree .type tree.orUndefined (e.orUndefined.text "  " 0 false) :=
  ⟨_, rfl, by decide +kernel, lower_groups rfl "  " 0⟩

end ApiType

end ApiTypings
