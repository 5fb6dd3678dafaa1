import ApiTypings.Proofs.Ancestors
import ApiTypings.Proofs.DeclarationErrors
/-!
# Replacements

A type can have a template parameter put in its place, be applied to `any`, or be given another name
(`Replacement`). Whatever is put in its place stays: nothing takes the place of a replacement
(`typeOverride?_of_typeOverride?`), so replacing once is replacing for good.

A generic type that is named without arguments, where it is no template parameter itself, is *bare*.
A bare type is always replaced, and no replacement is bare. So no declaration in the block of a
namespace names a generic type without arguments, at any depth (`namesNeverBare_of_render`).
-/

namespace ApiTypings

/-! ### Local names -/

theorem eq_member_of_localName? {scope name inner : String} (h : localName? scope name = some inner) :
    name = member scope inner := by
  obtain ⟨chars, hchars, rfl⟩ := Option.map_eq_some_iff.1 h
  refine String.toList_injective ?_
  rw [member, String.toList_append, String.toList_ofList]
  exact (List.isPrefixOf?_eq_some_iff_append_eq.1 hchars).symm

@[simp]
theorem firstSegment_member (path name : String) :
    firstSegment (member path name) = firstSegment path := by
  have htake : ∀ chars rest : List Char, (chars ++ '.' :: rest).takeWhile (· ≠ '.') =
      chars.takeWhile (· ≠ '.') := by
    intro chars rest
    induction chars with
    | nil => simp
    | cons c chars ih => simp only [List.cons_append, List.takeWhile_cons, ih]
  rw [firstSegment, firstSegment, ← htake path.toList name.toList]
  simp [member]

/-- Of the path of a reference to a generic type only the first segment counts. -/
theorem templatedTarget?_congr {path path' : String} (h : firstSegment path = firstSegment path')
    (name : String) : templatedTarget? name path = templatedTarget? name path' := by
  unfold templatedTarget?
  rw [h]

/-- A name that refers to a generic type is that of the type or the end of it. -/
theorem segments_suffix_of_templatedTarget? {name path : String}
    (h : (templatedTarget? name path).isSome = true) :
    ∃ target ∈ objectTemplates.map (·.1), segments name <:+ segments target := by
  obtain ⟨target, htarget⟩ := Option.isSome_iff_exists.1 h
  refine ⟨target, List.mem_of_find?_eq_some htarget, ?_⟩
  have hname : target = name ∨ localName? (firstSegment path) target = some name := by
    simpa using List.find?_some htarget
  rcases hname with rfl | hlocal
  · exact List.suffix_refl _
  · rw [eq_member_of_localName? hlocal, segments_member]
    exact List.suffix_append _ _

/-! ### Bare types -/

/-- A name that stands without arguments for a generic type. -/
def Reference.IsBareAt {τ : Type} (path : String) (target : Reference) (arguments : List τ) : Prop :=
  arguments = [] ∧ target.generic = false ∧ (templatedTarget? target.name path).isSome = true

/-- A type that names a generic type without arguments. -/
def ApiType.IsBareAt (path : String) : ApiType → Prop
  | .reference target arguments => target.IsBareAt path arguments
  | _ => False

/-- The type that is declared for a type at a path: what takes its place or, if nothing does, the type
itself. -/
def ApiType.printed (path : String) (t : ApiType) : ApiType :=
  (typeOverride? path t).getD t

/-! ### Slots -/

namespace GenericSlot

variable {slot slot' : GenericSlot} {path : String}

theorem applies_reference (target : Reference) (arguments : List ApiType) :
    slot.applies path (.reference target arguments) =
      (slot.covers path && !(target.generic && decide (target.name = slot.parameter)) &&
        !slot.onlyAny) := by
  simp only [applies, isFilled, ApiType.isAny, Bool.or_false]

theorem parameter_of_covers_callback : ∀ path ∈ ["events.Event.addListener.callback",
    "events.Event.removeListener.callback", "events.Event.hasListener.callback"],
    ∀ slot ∈ genericSlots, slot.covers path = true → slot.parameter = "H" := by
  decide +kernel

/-- Where two slots meet they are for the same parameter. -/
theorem parameter_eq_of_covers (hslot : slot ∈ genericSlots) (hslot' : slot' ∈ genericSlots)
    (h : slot.covers path = true) (h' : slot'.covers path = true) :
    slot.parameter = slot'.parameter := by
  rcases isTemplatePosition_of_covers hslot h with ⟨hname, hpath⟩ | ⟨hname, -⟩
  · rw [hname, parameter_of_covers_callback path hpath slot' hslot' h']
  · rcases isTemplatePosition_of_covers hslot' h' with ⟨hname', hpath⟩ | ⟨hname', -⟩
    · rw [hname', parameter_of_covers_callback path hpath slot hslot h]
    · rw [hname, hname']

end GenericSlot

/-! ### Names -/

namespace Replacement

/-- The names that references are given up. -/
def oldNames : List String :=
  referenceRepairs.map (·.2.1) ++ hostNames.map (·.1)

/-- The names that references are given instead. -/
def newNames : List String :=
  referenceRepairs.map (·.2.2) ++ hostNames.map (·.2)

/-- No new name is an old one. -/
theorem not_mem_oldNames_of_mem_newNames : ∀ name ∈ newNames, name ∉ oldNames := by
  decide +kernel

/-- Template parameters keep their names. -/
theorem parameter_not_mem_oldNames :
    ∀ slot ∈ genericSlots, slot.parameter ∉ oldNames := by
  decide +kernel

/-- Neither the old names nor the new ones refer to generic types. -/
theorem templatedTarget?_eq_none {name : String} (hname : name ∈ oldNames ++ newNames)
    (path : String) : templatedTarget? name path = none := by
  have hnot : ∀ name ∈ oldNames ++ newNames, ∀ target ∈ objectTemplates.map (·.1),
      ¬segments name <:+ segments target := by
    decide +kernel
  by_contra hsome
  obtain ⟨target, htarget, hsuffix⟩ :=
    segments_suffix_of_templatedTarget? (Option.isSome_iff_ne_none.2 hsome)
  exact hnot name hname target htarget hsuffix

theorem mem_of_repairedName? {path name new : String} (h : repairedName? path name = some new) :
    name ∈ oldNames ∧ new ∈ newNames := by
  obtain ⟨repair, hrepair, rfl⟩ := Option.map_eq_some_iff.1 h
  have hmem : repair ∈ referenceRepairs := List.mem_of_find?_eq_some hrepair
  have hname : repair.1 = path ∧ repair.2.1 = name := by simpa using List.find?_some hrepair
  rw [← hname.2]
  exact ⟨List.mem_append_left _ (List.mem_map_of_mem hmem),
    List.mem_append_left _ (List.mem_map_of_mem hmem)⟩

theorem mem_of_hostName? {name new : String} (h : hostName? name = some new) :
    name ∈ oldNames ∧ new ∈ newNames := by
  obtain ⟨before, after, hsplit, -⟩ := List.lookup_eq_some_iff.1 h
  have hmem : (name, new) ∈ hostNames := by simp [hsplit]
  exact ⟨List.mem_append_right _ (List.mem_map_of_mem hmem),
    List.mem_append_right _ (List.mem_map_of_mem hmem)⟩

variable {path : String} {t u : ApiType} {target : Reference} {arguments : List ApiType}

/-- A reference to a generic type is applied to `any` if it is bare, and another one is renamed. -/
theorem ofReference?_cases {r : Replacement} (h : ofReference? path target arguments = some r) :
    (target.IsBareAt path arguments ∧ r = .applyToAny) ∨
      ∃ name ∈ newNames, target.name ∈ oldNames ∧ r = .rename name := by
  unfold ofReference? at h
  split at h
  · next hbare =>
    cases h
    have hbare : target.IsBareAt path arguments := by
      simpa [Reference.IsBareAt, and_assoc] using hbare
    exact .inl ⟨hbare, rfl⟩
  · split at h
    · next name hname =>
      cases h
      obtain ⟨hold, hnew⟩ := mem_of_repairedName? hname
      exact .inr ⟨name, hnew, hold, rfl⟩
    · split_ifs at h
      obtain ⟨name, hname, rfl⟩ := Option.map_eq_some_iff.1 h
      obtain ⟨hold, hnew⟩ := mem_of_hostName? hname
      exact .inr ⟨name, hnew, hold, rfl⟩

/-- A reference with arguments is left alone if it keeps its name. -/
theorem ofReference?_eq_none (hbare : ¬target.IsBareAt path arguments)
    (hname : target.name ∉ oldNames) : ofReference? path target arguments = none := by
  rw [Option.eq_none_iff_forall_ne_some]
  intro r hr
  rcases ofReference?_cases hr with ⟨h, -⟩ | ⟨_, -, hold, -⟩
  · exact hbare h
  · exact hname hold

/-- A template parameter is put where one of the slots applies, and where none does only a reference
has anything done to it. -/
theorem find?_cases {r : Replacement} (h : find? path t = some r) :
    (∃ slot ∈ genericSlots, slot.applies path t = true ∧ r = .parameter slot.parameter) ∨
      (∀ slot ∈ genericSlots, slot.applies path t = false) ∧
        ∃ target arguments, t = .reference target arguments ∧
          ofReference? path target arguments = some r := by
  unfold find? at h
  split at h
  · next slot hslot =>
    cases h
    exact .inl ⟨slot, List.mem_of_find?_eq_some hslot, by simpa using List.find?_some hslot, rfl⟩
  · next hnone =>
    refine .inr ⟨fun slot hslot => ?_, ?_⟩
    · exact Bool.of_not_eq_true (by simpa using List.find?_eq_none.1 hnone slot hslot)
    · cases t with
      | reference target arguments => exact ⟨target, arguments, rfl, h⟩
      | _ => cases h

/-- A reference is left alone if no slot applies to it and nothing is done to references like it. -/
theorem find?_reference_eq_none
    (hslots : ∀ slot ∈ genericSlots, slot.applies path (.reference target arguments) = false)
    (h : ofReference? path target arguments = none) :
    find? path (.reference target arguments) = none := by
  rw [Option.eq_none_iff_forall_ne_some]
  intro r hr
  rcases find?_cases hr with ⟨slot, hslot, happlies, -⟩ | ⟨-, _, _, hreference, hsome⟩
  · rw [hslots slot hslot] at happlies
    cases happlies
  · cases hreference
    rw [h] at hsome
    cases hsome

/-- What is done to a type: a template parameter takes its place where a slot applies, a bare reference
is applied to `any`, and a reference by an old name is given a new one. -/
inductive Does (path : String) : ApiType → Replacement → Prop
  | parameter {t : ApiType} {slot : GenericSlot} (hslot : slot ∈ genericSlots)
      (hcovers : slot.covers path = true) : Does path t (.parameter slot.parameter)
  | applyToAny {target : Reference}
      (hslots : ∀ slot ∈ genericSlots, slot.applies path (.reference target []) = false)
      (hbare : target.IsBareAt path ([] : List ApiType)) : Does path (.reference target []) .applyToAny
  | rename {target : Reference} {arguments : List ApiType} {name : String}
      (hslots : ∀ slot ∈ genericSlots, slot.applies path (.reference target arguments) = false)
      (hold : target.name ∈ oldNames) (hnew : name ∈ newNames) :
      Does path (.reference target arguments) (.rename name)

theorem does_of_find? {r : Replacement} (h : find? path t = some r) : Does path t r := by
  rcases find?_cases h with ⟨slot, hslot, happlies, rfl⟩ | ⟨hslots, target, arguments, rfl, hdone⟩
  · exact .parameter hslot (GenericSlot.covers_of_applies happlies)
  · rcases ofReference?_cases hdone with ⟨hbare, rfl⟩ | ⟨name, hnew, hold, rfl⟩
    · obtain rfl : arguments = [] := hbare.1
      exact .applyToAny hslots hbare
    · exact .rename hslots hold hnew

/-- No slot applies where the parameter of one has been put: all slots there are for this parameter. -/
theorem applies_templateParameter {slot slot' : GenericSlot} (hslot : slot ∈ genericSlots)
    (hslot' : slot' ∈ genericSlots) (hcovers : slot.covers path = true) :
    slot'.applies path (.templateParameter slot.parameter) = false := by
  rw [ApiType.templateParameter, GenericSlot.applies_reference]
  cases hcovers' : slot'.covers path with
  | false => rfl
  | true =>
    have hparameter := GenericSlot.parameter_eq_of_covers hslot hslot' hcovers hcovers'
    simp [hparameter]

/-- A slot that does not apply to a reference by an old name does not apply to it by another one. Only
a template parameter could have filled it, and these have no old names. -/
theorem applies_rename {slot : GenericSlot} (hslot : slot ∈ genericSlots)
    (hold : target.name ∈ oldNames) (h : slot.applies path (.reference target arguments) = false)
    (name : String) : slot.applies path (.reference { target with name := name } arguments) = false := by
  have hname : target.name ≠ slot.parameter := fun hname =>
    parameter_not_mem_oldNames slot hslot (hname ▸ hold)
  rw [GenericSlot.applies_reference] at h ⊢
  cases hcovers : slot.covers path with
  | false => rfl
  | true =>
    simp only [hcovers, hname, decide_false, Bool.and_false, Bool.not_false, Bool.and_self,
      Bool.true_and] at h
    rw [h, Bool.and_false]

/-- **Nothing is done to a replacement.** -/
theorem Does.find?_apply {r : Replacement} (h : Does path t r) : find? path (r.apply t) = none := by
  cases h with
  | @parameter _ slot hslot hcovers =>
    refine find?_reference_eq_none (fun slot' hslot' => ?_) (ofReference?_eq_none ?_ ?_)
    · exact applies_templateParameter hslot hslot' hcovers
    · rintro ⟨-, hgeneric, -⟩
      cases hgeneric
    · exact parameter_not_mem_oldNames slot hslot
  | @applyToAny target hslots hbare =>
    refine find?_reference_eq_none (fun slot hslot => ?_) (ofReference?_eq_none ?_ ?_)
    · have happlies := hslots slot hslot
      rw [GenericSlot.applies_reference] at happlies ⊢
      exact happlies
    · rintro ⟨harguments, -⟩
      cases harguments
    · intro hold
      have hnone := templatedTarget?_eq_none (List.mem_append_left _ hold) path
      obtain ⟨-, -, hsome⟩ := hbare
      rw [hnone] at hsome
      cases hsome
  | @rename target arguments name hslots hold hnew =>
    refine find?_reference_eq_none (fun slot hslot => ?_) (ofReference?_eq_none ?_ ?_)
    · exact applies_rename hslot hold (hslots slot hslot) name
    · rintro ⟨-, -, hsome⟩
      rw [templatedTarget?_eq_none (List.mem_append_right _ hnew) path] at hsome
      cases hsome
    · exact not_mem_oldNames_of_mem_newNames _ hnew

end Replacement

/-! ### Types -/

section

open Replacement

variable {path : String} {t u : ApiType}

theorem exists_find?_of_typeOverride? (h : typeOverride? path t = some u) :
    ∃ r, find? path t = some r ∧ r.apply t = u :=
  Option.map_eq_some_iff.1 h

/-- Replacing is done in one step. -/
theorem typeOverride?_of_typeOverride? (h : typeOverride? path t = some u) :
    typeOverride? path u = none := by
  obtain ⟨r, hr, rfl⟩ := exists_find?_of_typeOverride? h
  rw [typeOverride?, (does_of_find? hr).find?_apply]
  rfl

/-- Nothing takes the place of what is declared for a type. -/
theorem typeOverride?_printed : typeOverride? path (t.printed path) = none := by
  unfold ApiType.printed
  cases h : typeOverride? path t with
  | none => exact h
  | some u => exact typeOverride?_of_typeOverride? h

/-- Something takes the place of a bare type. -/
theorem typeOverride?_ne_none_of_bare (h : t.IsBareAt path) : typeOverride? path t ≠ none := by
  cases t with
  | reference target arguments =>
    intro hnone
    have hfind : find? path (.reference target arguments) = none := Option.map_eq_none_iff.1 hnone
    unfold find? at hfind
    split at hfind
    · cases hfind
    · obtain ⟨rfl, hgeneric, hsome⟩ := h
      simp [ofReference?, hgeneric, hsome] at hfind
  | _ => exact h.elim

/-- What is declared for a type is never bare. -/
theorem not_isBareAt_printed : ¬(t.printed path).IsBareAt path :=
  fun hbare => typeOverride?_ne_none_of_bare hbare typeOverride?_printed

theorem lower_of_find?_eq_parameter {scope : List String} {name : String}
    (h : find? path t = some (.parameter name)) :
    t.lower scope path = lowerTemplate scope path name := by
  cases t <;> simp only [ApiType.lower, lowerUnlessParameter, h]

/-- A reference that nothing is done to is lowered as it stands. -/
theorem lower_reference_of_find?_eq_none (scope : List String) {target : Reference}
    {arguments : List ApiType} (h : find? path (.reference target arguments) = none) :
    (ApiType.reference target arguments).lower scope path = (do
      let target ← finalTarget scope path target none
      return .named target (← ApiType.lowerItems scope path arguments)) := by
  rw [ApiType.lower, h]

theorem lower_templateParameter {scope : List String} {name : String}
    (h : find? path (.templateParameter name) = none) :
    (ApiType.templateParameter name).lower scope path = lowerTemplate scope path name := by
  rw [ApiType.templateParameter, lower_reference_of_find?_eq_none scope h, lowerTemplate]
  by_cases hscope : name ∈ scope
  · simp [finalTarget, finalTarget.check, ApiType.lowerItems, hscope, bind, Except.bind, pure,
      Except.pure]
  · simp [finalTarget, finalTarget.check, hscope, bind, Except.bind]

theorem lower_applied (scope : List String) {target : Reference}
    (hgeneric : target.generic = false) (h : find? path (.reference target [.any]) = none) :
    (ApiType.reference target [.any]).lower scope path =
      (lowerAny scope path).map fun argument => .named target [argument] := by
  have hcheck : finalTarget scope path target none = .ok target := by
    simp [finalTarget, finalTarget.check, hgeneric]
  have hany : ApiType.any.lower scope path = lowerAny scope path := rfl
  rw [lower_reference_of_find?_eq_none scope h, hcheck, ApiType.lowerItems, ApiType.lowerItems, hany]
  cases lowerAny scope path <;> rfl

/-- **Lowering a type** is lowering what is declared for it. -/
theorem lower_printed (scope : List String) :
    (t.printed path).lower scope path = t.lower scope path := by
  unfold ApiType.printed
  cases h : typeOverride? path t with
  | none => rfl
  | some u =>
    obtain ⟨r, hr, rfl⟩ := exists_find?_of_typeOverride? h
    have hsettled := (does_of_find? hr).find?_apply
    show (r.apply t).lower scope path = t.lower scope path
    cases does_of_find? hr with
    | @parameter _ slot hslot hcovers =>
      rw [lower_of_find?_eq_parameter hr]
      exact lower_templateParameter hsettled
    | @applyToAny target hslots hbare =>
      have happlied := lower_applied scope hbare.2.1 hsettled
      rw [ApiType.lower, hr]
      refine happlied.trans ?_
      cases lowerAny scope path <;> rfl
    | @rename target arguments name hslots hold hnew =>
      have hrenamed := lower_reference_of_find?_eq_none scope hsettled
      rw [ApiType.lower, hr]
      exact hrenamed

end

/-! ### Names in expressions -/

/-- The types in a member of an object. -/
def ObjectMember.types {τ : Type} : ObjectMember τ → List τ
  | property _ _ _ type => [type]
  | method _ _ parameters returns => parameters.map (·.type) ++ [returns]
  | call parameters returns => parameters.map (·.type) ++ [returns]
  | index type => [type]

namespace TypeExpr

/-- The types that a type is built from. -/
def children : TypeExpr → List TypeExpr
  | keyword _ => []
  | literal _ => []
  | named _ arguments => arguments
  | array element => [element]
  | tuple elements rest => elements ++ rest.toList
  | intersection items => items
  | union items => items
  | arrow parameters returns => parameters.map (·.type) ++ [returns]
  | object members => members.flatMap ObjectMember.types

/-- The type `u` is met in a type, at any depth. -/
inductive Inside (u : TypeExpr) : TypeExpr → Prop
  | refl : Inside u u
  | child {e c : TypeExpr} (hc : c ∈ e.children) (h : Inside u c) : Inside u e

variable {N : Reference → List TypeExpr → Prop}

/-- `N` holds of every name in a type, and of its arguments. -/
def NamesHold (N : Reference → List TypeExpr → Prop) (e : TypeExpr) : Prop :=
  ∀ target arguments, (named target arguments).Inside e → N target arguments

theorem namesHold_of_children {e : TypeExpr}
    (hself : ∀ target arguments, e = .named target arguments → N target arguments)
    (h : ∀ c ∈ e.children, c.NamesHold N) : e.NamesHold N := by
  intro target arguments hinside
  cases hinside with
  | refl => exact hself target arguments rfl
  | child hc hinside => exact h _ hc target arguments hinside

theorem forall_mem_types {R : List (Parameter TypeExpr) → Prop} {P : TypeExpr → Prop}
    {parameters : List (Parameter TypeExpr)} {returns : TypeExpr}
    (hparameters : ParametersHold R P parameters) (hreturns : P returns) :
    ∀ e ∈ parameters.map (·.type) ++ [returns], P e :=
  List.forall_mem_append.2
    ⟨List.forall_mem_map.2 hparameters.types, List.forall_mem_singleton.2 hreturns⟩

theorem forall_mem_memberTypes {R : List (Parameter TypeExpr) → Prop} {P : TypeExpr → Prop}
    {members : List (ObjectMember TypeExpr)} (h : ∀ m ∈ members, m.Holds R P) :
    ∀ e ∈ members.flatMap ObjectMember.types, P e := by
  intro e he
  obtain ⟨m, hm, he⟩ := List.mem_flatMap.1 he
  have hm : m.Holds R P := h m hm
  cases m with
  | property doc key optional type => exact List.mem_singleton.1 he ▸ hm
  | method doc key parameters returns => exact forall_mem_types hm.1 hm.2 e he
  | call parameters returns => exact forall_mem_types hm.1 hm.2 e he
  | index type => exact List.mem_singleton.1 he ▸ hm

/-- What is known of the names that are written is known of all names in what is built. -/
theorem keptByBuilding_namesHold (N : Reference → List TypeExpr → Prop)
    (R : List (Parameter TypeExpr) → Prop) : KeptByBuilding N R (NamesHold N) where
  keyword _ := namesHold_of_children (by rintro _ _ ⟨⟩) (List.forall_mem_nil _)
  literal _ := namesHold_of_children (by rintro _ _ ⟨⟩) (List.forall_mem_nil _)
  named target arguments hname h := by
    refine namesHold_of_children (fun target' arguments' heq => ?_) h
    cases heq
    exact hname
  array h := namesHold_of_children (by rintro _ _ ⟨⟩) (List.forall_mem_singleton.2 h)
  tuple {_ rest} h hrest := namesHold_of_children (by rintro _ _ ⟨⟩)
    (List.forall_mem_append.2 ⟨h, fun e he => hrest e (Option.mem_toList.1 he)⟩)
  intersection _ h := namesHold_of_children (by rintro _ _ ⟨⟩) h
  union _ h := namesHold_of_children (by rintro _ _ ⟨⟩) h
  arrow h hreturns := namesHold_of_children (by rintro _ _ ⟨⟩) (forall_mem_types h hreturns)
  object h := namesHold_of_children (by rintro _ _ ⟨⟩) (forall_mem_memberTypes h)

end TypeExpr

/-- The types in a declaration. A class is constructed from itself, by the name that it declares. -/
def Declaration.types : Declaration → List TypeExpr
  | typeAlias _ _ type => [type]
  | interfaceType _ _ members => members.flatMap ObjectMember.types
  | classType _ _ _ members => members.flatMap ObjectMember.types
  | constant _ _ => []
  | typedConstant _ type => [type]
  | letVariable _ type => [type]
  | function _ parameters returns => parameters.map (·.type) ++ [returns]

theorem Declaration.forall_types {R : List (Parameter TypeExpr) → Prop} {P : TypeExpr → Prop}
    {d : Declaration} (h : d.Holds R P) : ∀ e ∈ d.types, P e := by
  cases d with
  | typeAlias name templates type => exact List.forall_mem_singleton.2 h
  | interfaceType name templates members => exact TypeExpr.forall_mem_memberTypes h
  | classType name templates arguments members => exact TypeExpr.forall_mem_memberTypes h
  | constant name value => exact List.forall_mem_nil _
  | typedConstant name type => exact List.forall_mem_singleton.2 h
  | letVariable name type => exact List.forall_mem_singleton.2 h
  | function name parameters returns => exact TypeExpr.forall_mem_types h.1 h.2

/-! ### Documents -/

/-- A name that is not bare at any path with this first segment. -/
def NeverBare (segment : String) (target : Reference) (arguments : List TypeExpr) : Prop :=
  ∀ path, firstSegment path = segment → ¬target.IsBareAt path arguments

/-- The name that a reference is lowered to is not bare: where nothing is done to the reference it is
not bare itself, and where it is renamed the new name is that of no generic type. -/
theorem not_isBareAt_finalTarget {scope : List String} {path : String} {target final : Reference}
    {arguments : List ApiType} {items : List TypeExpr}
    (hparameter : ∀ name, Replacement.find? path (.reference target arguments) ≠
      some (.parameter name))
    (happlied : Replacement.find? path (.reference target arguments) ≠ some .applyToAny)
    (hfinal : finalTarget scope path target
      (Replacement.find? path (.reference target arguments)) = .ok final)
    (hlength : items.length = arguments.length) : ¬final.IsBareAt path items := by
  rintro ⟨rfl, hgeneric, hsome⟩
  obtain rfl : arguments = [] := List.length_eq_zero_iff.1 hlength.symm
  have hcheck : ∀ target' : Reference, finalTarget.check scope path target' = .ok final →
      final = target' := by
    intro target' h
    unfold finalTarget.check at h
    split_ifs at h
    cases h
    rfl
  cases hfind : Replacement.find? path (.reference target []) with
  | none =>
    rw [hfind] at hfinal
    obtain rfl : final = target := hcheck target hfinal
    have hbare : (ApiType.reference final []).IsBareAt path := ⟨rfl, hgeneric, hsome⟩
    exact typeOverride?_ne_none_of_bare hbare (Option.map_eq_none_iff.2 hfind)
  | some r =>
    cases Replacement.does_of_find? hfind with
    | @parameter _ slot hslot hcovers => exact hparameter _ hfind
    | applyToAny hslots hbare => exact happlied hfind
    | @rename _ _ name hslots hold hnew =>
      rw [hfind] at hfinal
      obtain rfl : final = { target with name := name } := hcheck _ hfinal
      rw [Replacement.templatedTarget?_eq_none (List.mem_append_right _ hnew) path] at hsome
      cases hsome

/-- At the paths that start with a segment no name is bare there. -/
theorem namesAt_neverBare (segment : String) :
    NamesAt (fun _ path => firstSegment path = segment) (NeverBare segment) where
  below name h := (firstSegment_member _ name).trans h
  promise result _ _ := by
    rintro ⟨h, -⟩
    cases h
  template _ _ _ _ := by
    rintro ⟨-, h, -⟩
    cases h
  applied _ _ _ _ _ := by
    rintro ⟨h, -⟩
    cases h
  reference hhere hparameter happlied hfinal hlength path' hpath' := by
    rintro ⟨hitems, hgeneric, hsome⟩
    rw [templatedTarget?_congr (hpath'.trans hhere.symm)] at hsome
    exact not_isBareAt_finalTarget hparameter happlied hfinal hlength ⟨hitems, hgeneric, hsome⟩

/-- In the block of a namespace no name is bare. -/
def Block.NamesNeverBare (ns : Namespace) (b : Block) : Prop :=
  ∀ s ∈ b.paragraphs.flatten, ∀ e ∈ s.declaration.types,
    ∀ target arguments, (TypeExpr.named target arguments).Inside e →
      NeverBare (firstSegment ns.name) target arguments

theorem namesNeverBare_of_render {r : Renderer} {namespaces : List Namespace} {document : Document}
    (h : (declareNamespaces r.options namespaces r.state).result = .ok document) :
    List.Forall₂ Block.NamesNeverBare (visibleNamespaces namespaces) document.blocks := by
  have hblocks := KeptByBuilding.blocks_declareNamespaces
    (fun ns => TypeExpr.keptByBuilding_namesHold (NeverBare (firstSegment ns.name)) OptionalLast)
    (fun ns => namesAt_neverBare (firstSegment ns.name))
    (fun ns _ name => firstSegment_member ns.name name) h
  exact hblocks.imp fun ns b hb s hs => Declaration.forall_types (hb s hs)

/-- **Replacing settles, and generic types never stand without arguments.** Nothing takes the place of
a replacement. So what is declared for a type, which is its replacement or the type itself, is never
the bare name of a generic type, and lowering a type is lowering what is declared for it. Whenever
namespaces render, no declaration in the block of a namespace names a generic type without arguments:
at any depth, and as the name is read at any path in the namespace. -/
theorem replacements_settle :
    (∀ path t u, typeOverride? path t = some u → typeOverride? path u = none) ∧
      (∀ path (t : ApiType), ¬(t.printed path).IsBareAt path) ∧
      (∀ scope path (t : ApiType), t.lower scope path = (t.printed path).lower scope path) ∧
      ∀ (r : Renderer) namespaces text, (r.render namespaces).text = .ok text →
        ∃ document : Document,
          (declareNamespaces r.options namespaces r.state).result = .ok document ∧
            text = document.text r.options.indent ∧
            List.Forall₂ Block.NamesNeverBare (visibleNamespaces namespaces) document.blocks := by
  refine ⟨fun _ _ _ => typeOverride?_of_typeOverride?, fun _ _ => not_isBareAt_printed,
    fun scope _ _ => (lower_printed scope).symm, fun r namespaces text h => ?_⟩
  obtain ⟨document, hdocument, rfl⟩ := map_eq_ok_iff.1 h
  exact ⟨document, hdocument, rfl, namesNeverBare_of_render hdocument⟩

/-- Events, and a type with an event that is named without its namespace. -/
def ruledEvents : Namespace where
  name := "events"
  members := [
    { isType := true
      name := "Event"
      type := .object [.plain "addListener"
        (.function [.plain "callback" (.function [] none none false)] none none false)]
          none none none },
    { isType := true
      name := "Rules"
      type := .object [.plain "byPriority" (.sequence (.named "Event") 0 none)] none none none }]

/-- The listener gives way to a template parameter, and the event is applied to `any`, also as the
element of an array. Neither is replaced again. -/
theorem ruledEvents_settle :
    (typeOverride? "events.Event.addListener.callback" (.function [] none none false) =
        some (.templateParameter "H") ∧
      typeOverride? "events.Event.addListener.callback" (.templateParameter "H") = none) ∧
    (typeOverride? "events.Rules.byPriority" (.named "Event") =
        some (.reference ⟨"Event", false, false⟩ [.any]) ∧
      typeOverride? "events.Rules.byPriority" (.reference ⟨"Event", false, false⟩ [.any]) = none) ∧
    ∃ text document,
      (Renderer.render {} [ruledEvents]).text = .ok text ∧
      (declareNamespaces {} [ruledEvents] {}).result = .ok document ∧
      List.Forall₂ Block.NamesNeverBare (visibleNamespaces [ruledEvents]) document.blocks := by
  obtain ⟨hsettles, -, -, hrender⟩ := replacements_settle
  have hlistener : typeOverride? "events.Event.addListener.callback" (.function [] none none false) =
      some (.templateParameter "H") := by rfl
  have hevent : typeOverride? "events.Rules.byPriority" (.named "Event") =
      some (.reference ⟨"Event", false, false⟩ [.any]) := by rfl
  have hrenders : (Renderer.render {} [ruledEvents]).text.toOption.isSome = true := by decide +kernel
  refine ⟨⟨hlistener, hsettles _ _ _ hlistener⟩, ⟨hevent, hsettles _ _ _ hevent⟩, ?_⟩
  cases htext : (Renderer.render {} [ruledEvents]).text with
  | error e =>
    rw [htext] at hrenders
    cases hrenders
  | ok text =>
    obtain ⟨document, hdocument, -, hbare⟩ := hrender {} [ruledEvents] text htext
    exact ⟨text, document, rfl, hdocument, hbare⟩

end ApiTypings
