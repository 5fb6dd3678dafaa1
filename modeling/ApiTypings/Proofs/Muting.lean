import ApiTypings.Declaration.Renderer
import ApiTypings.Proofs.Steady
/-!
# What one rendering leaves for the next

A renderer keeps its state from one list of namespaces to the next. Names never stay in scope
(`Announcing.Steady.withScope`), but announcements stay muted if a function stops at an overload
after the first. The text of the next rendering is not touched by this. Its symbols are: those
before the first function are not heard (`Renderer.render_after`).

Every declaration is `Announcing.Steady`. What it does to muting is computed beside it, from
`functionEffect` up to `batchEffect`, and `GetsTo` says the same without computing.
-/

namespace ApiTypings

/-! ### What the declarations do to muting -/

open Announcing

variable {scope : List String}

theorem steady_announceMembers (path : String) (properties : List (Property ApiType)) :
    Steady scope (announceMembers path properties) none := by
  unfold announceMembers
  induction Property.visible properties with
  | nil => exact steady_pure ()
  | cons p ps ih => exact (steady_announce _ _ _).bind fun _ => ih

theorem steady_declareScopedType (p : Property ApiType) (path : String)
    (templates : Option String) :
    Steady scope (declareScopedType p path templates) none := by
  unfold declareScopedType
  refine Steady.scope_bind ?_
  dsimp only
  split
  · refine (steady_lift _).bind fun members => ?_
    refine (steady_announce _ _ _).bind fun _ => ?_
    exact (steady_announceMembers _ _).bind fun _ => steady_pure _
  · refine (steady_lift _).bind fun type => ?_
    exact (steady_announce _ _ _).bind fun _ => steady_pure _

theorem steady_declareType (ns : String) (p : Property ApiType) :
    Steady [] (declareType ns p) none :=
  (steady_declareScopedType p _ _).withScope

theorem steady_declareValue (scope : List String) (ns : String) (p : Property ApiType) :
    Steady scope (declareValue ns p) none := by
  unfold declareValue
  refine Steady.scope_bind ?_
  refine (steady_lift _).bind fun ⟨kind, declaration⟩ => ?_
  exact (steady_announce _ _ _).bind fun _ => steady_pure _

/-- What overloads do to muting, up to the first that fails: the first is audible, those after it
are not. -/
def overloadsEffect (first : Bool) : List (Signature Deferred) → Option Bool
  | [] => none
  | s :: rest => some (!first || (s.lowered.toBool && !rest.isEmpty))

theorem steady_declareOverloads (scope : List String) (p : Property ApiType) (path : String)
    (first : Bool)
    (signatures : List (Signature Deferred)) :
    Steady scope (declareOverloads p path first signatures) (overloadsEffect first signatures) := by
  induction signatures generalizing first with
  | nil => exact steady_pure []
  | cons s rest ih =>
    unfold declareOverloads
    cases hs : s.lowered with
    | error err =>
      -- The failure leaves muting as the overload has set it.
      have heffect : overloadsEffect first (s :: rest) = (none <|> some (!first)) := by
        rw [overloadsEffect, hs]
        cases first <;> rfl
      rw [heffect]
      refine Steady.bind_of_ok (steady_mute (!first)) rfl ?_
      exact (steady_announce _ _ _).bind fun _ => steady_lift _
    | ok lowered =>
      have heffect : overloadsEffect first (s :: rest) =
          (overloadsEffect false rest <|> some (!first)) := by
        rw [overloadsEffect, hs]
        cases rest <;> cases first <;> rfl
      rw [heffect]
      refine Steady.bind_of_ok (steady_mute (!first)) rfl ?_
      refine Steady.bind_of_succeeds (steady_announce _ _ _) rfl ?_
      rw [lift_ok_bind]
      exact (ih false).bind_pure _

theorem succeeds_declareOverloads (scope : List String) (p : Property ApiType) (path : String)
    (first : Bool)
    (signatures : List (Signature Deferred)) :
    succeeds scope (declareOverloads p path first signatures) =
      signatures.all fun s => s.lowered.toBool := by
  induction signatures generalizing first with
  | nil => rfl
  | cons s rest ih =>
    unfold declareOverloads
    rw [List.all_cons, ← ih false]
    cases hs : s.lowered with
    | error err => rfl
    | ok lowered =>
      have hrest := (steady_declareOverloads scope p path false rest).bind_pure fun statements =>
        (⟨s.doc (p.toTraits.doc p.type path), .function (escape p.name) lowered.1 lowered.2⟩ :
          Statement)
          :: statements
      exact (congrArg Except.toBool (hrest.result_eq (!first))).trans (succeeds_bind_pure _)

/-- Whether overloads stop at one after the first. -/
def stopsLater : List (Signature Deferred) → Bool
  | [] => false
  | s :: rest => s.lowered.toBool && rest.any (!·.lowered.toBool)

theorem stopsLater_of_all {signatures : List (Signature Deferred)}
    (h : (signatures.all fun s => s.lowered.toBool) = true) : stopsLater signatures = false := by
  cases signatures with
  | nil => rfl
  | cons s rest =>
    rw [List.all_cons, Bool.and_eq_true, List.all_eq_true] at h
    rw [stopsLater, h.1, Bool.true_and, List.any_eq_false]
    intro s' hs'
    simp [h.2 s' hs']

theorem overloadsEffect_of_not_all {signatures : List (Signature Deferred)}
    (h : (signatures.all fun s => s.lowered.toBool) = false) :
    overloadsEffect true signatures = some (stopsLater signatures) := by
  cases signatures with
  | nil => cases h
  | cons s rest =>
    rw [overloadsEffect, stopsLater]
    cases hs : s.lowered.toBool with
    | false => rfl
    | true =>
      rw [List.all_cons, hs, Bool.true_and] at h
      obtain ⟨s', hs', hfails⟩ := List.all_eq_false.1 h
      have hany : rest.any (!·.lowered.toBool) = true :=
        List.any_eq_true.2 ⟨s', hs', by simp [hfails]⟩
      have hne : rest.isEmpty = false := List.isEmpty_eq_false_iff.2 (List.ne_nil_of_mem hs')
      rw [hany, hne]
      rfl

/-- The overloads of a function, if its type has any. -/
def overloads? (ns : String) (p : Property ApiType) :
    Option (Except DeclarationError (List (Signature Deferred))) :=
  (p.type.lowerCallable? [] (member ns p.name)).map (·.loweredSignatures (member ns p.name))

/-- What a function does to muting: nothing if one does not get to its overloads, and else it
depends on whether these stop at one after the first. -/
def functionEffect (ns : String) (p : Property ApiType) : Option Bool :=
  match overloads? ns p with
  | some (.ok signatures) => some (stopsLater signatures)
  | _ => none

theorem steady_declareFunction (ns : String) (p : Property ApiType) :
    Steady [] (declareFunction ns p) (functionEffect ns p) := by
  unfold declareFunction functionEffect overloads?
  refine Steady.scope_bind ?_
  cases hc : p.type.lowerCallable? [] (member ns p.name) with
  | none => exact steady_pure []
  | some c =>
    rw [Option.map_some]
    cases hsig : c.loweredSignatures (member ns p.name) with
    | error err =>
      simp only [hsig, lift_error_bind]
      exact steady_lift _
    | ok signatures =>
      simp only [hsig, lift_ok_bind]
      have hall := steady_declareOverloads [] p (member ns p.name) true signatures
      have hsucceeds := succeeds_declareOverloads [] p (member ns p.name) true signatures
      cases hok : signatures.all fun s => s.lowered.toBool with
      | true =>
        -- Only here does one get to the end, where announcements are made audible.
        obtain ⟨statements, hstatements⟩ := succeeds_eq_true_iff.1 (hsucceeds.trans hok)
        rw [stopsLater_of_all hok]
        have hdone : Steady [] (mute false >>= fun _ => pure statements) (some false) :=
          (steady_mute false).bind_pure _
        exact hall.bind_of_ok (f := fun statements => mute false >>= fun _ => pure statements)
          hstatements hdone
      | false =>
        rw [← overloadsEffect_of_not_all hok]
        exact hall.bind_of_error (hsucceeds.trans hok)

/-- The groups of the members of a namespace. -/
def groups (options : RenderOptions) (ns : Namespace) :
    List (Property ApiType) × List (Property ApiType) × List (Property ApiType) :=
  memberGroups options.sortMembers ns.members

/-- Whether the types and the values of a namespace can be declared. -/
def reachesFunctions (options : RenderOptions) (ns : Namespace) : Bool :=
  (groups options ns).1.all (fun p => succeeds [] (declareType ns.name p)) &&
    (groups options ns).2.1.all fun p => succeeds [] (declareValue ns.name p)

/-- What a namespace does to muting. -/
def namespaceEffect (options : RenderOptions) (ns : Namespace) : Option Bool :=
  if reachesFunctions options ns then
    lastEffect (fun p => succeeds [] (declareFunction ns.name p)) (functionEffect ns.name)
      (groups options ns).2.2
  else none

theorem steady_declareMembers (options : RenderOptions) (ns : Namespace) :
    Steady [] (declareMembers options ns) (namespaceEffect options ns) := by
  unfold declareMembers namespaceEffect reachesFunctions
  have htypes := Steady.mapM_none (steady_declareType ns.name) (groups options ns).1
  have hvalues := Steady.mapM_none (steady_declareValue [] ns.name) (groups options ns).2.1
  have hfunctions := Steady.mapM (steady_declareFunction ns.name) (groups options ns).2.2
  rw [← Steady.succeeds_mapM (steady_declareType ns.name),
    ← Steady.succeeds_mapM (steady_declareValue [] ns.name)]
  cases ht : succeeds [] ((groups options ns).1.mapM (declareType ns.name)) with
  | false => exact htypes.bind_of_error ht
  | true =>
    obtain ⟨typeParagraphs, htp⟩ := succeeds_eq_true_iff.1 ht
    refine Steady.bind_of_succeeds htypes htp ?_
    cases hv : succeeds [] ((groups options ns).2.1.mapM (declareValue ns.name)) with
    | false => exact hvalues.bind_of_error hv
    | true =>
      obtain ⟨valueParagraphs, hvp⟩ := succeeds_eq_true_iff.1 hv
      refine Steady.bind_of_succeeds hvalues hvp ?_
      exact hfunctions.bind_pure _

theorem succeeds_declareMembers (options : RenderOptions) (ns : Namespace) :
    succeeds [] (declareMembers options ns) = (reachesFunctions options ns &&
      (groups options ns).2.2.all fun p => succeeds [] (declareFunction ns.name p)) := by
  unfold declareMembers
  have htypes := Steady.mapM_none (steady_declareType ns.name) (groups options ns).1
  have hvalues := Steady.mapM_none (steady_declareValue [] ns.name) (groups options ns).2.1
  have hfunctions := Steady.mapM (steady_declareFunction ns.name) (groups options ns).2.2
  rw [reachesFunctions, Bool.and_assoc, ← Steady.succeeds_mapM (steady_declareType ns.name),
    ← Steady.succeeds_mapM (steady_declareValue [] ns.name),
    ← Steady.succeeds_mapM (steady_declareFunction ns.name)]
  have hlast : ∀ block : List (List Statement) → Block,
      ∃ e, Steady [] (((groups options ns).2.2.mapM (declareFunction ns.name)) >>= fun paragraphs =>
        pure (block paragraphs)) e := fun block => ⟨_, hfunctions.bind_pure _⟩
  refine htypes.succeeds_bind (fun _ => hvalues.exists_bind fun _ => hlast _) fun _ => ?_
  exact hvalues.succeeds_bind (fun _ => hlast _) fun _ => succeeds_bind_pure _

theorem steady_declareNamespace (options : RenderOptions) (ns : Namespace) :
    Steady [] (declareNamespace options ns) (namespaceEffect options ns) :=
  Steady.bind_of_succeeds (steady_announce _ _ _) rfl (steady_declareMembers options ns)

theorem succeeds_declareNamespace (options : RenderOptions) (ns : Namespace) :
    succeeds [] (declareNamespace options ns) = (reachesFunctions options ns &&
      (groups options ns).2.2.all fun p => succeeds [] (declareFunction ns.name p)) := by
  rw [← succeeds_declareMembers]
  exact (steady_announce _ _ _).succeeds_bind
    (fun _ => ⟨_, steady_declareMembers options ns⟩) fun _ => rfl

theorem succeeds_declareFunction (ns : String) (p : Property ApiType) :
    succeeds [] (declareFunction ns p) =
      match overloads? ns p with
      | none => true
      | some (.error _) => false
      | some (.ok signatures) => signatures.all fun s => s.lowered.toBool := by
  unfold declareFunction overloads?
  rw [succeeds_scope_bind]
  cases hc : p.type.lowerCallable? [] (member ns p.name) with
  | none => rfl
  | some c =>
    rw [Option.map_some]
    cases hsig : c.loweredSignatures (member ns p.name) with
    | error err =>
      simp only [hsig, lift_error_bind]
      rfl
    | ok signatures =>
      simp only [hsig, lift_ok_bind]
      refine ((steady_declareOverloads [] p (member ns p.name) true signatures).succeeds_bind
        (fun statements => ⟨_, (steady_mute false).bind_pure fun _ => statements⟩)
          fun _ => rfl).trans ?_
      rw [Bool.and_true]
      exact succeeds_declareOverloads [] p (member ns p.name) true signatures

/-- A function that mutes announcements cannot be declared. -/
theorem functionEffect_ne_of_succeeds {ns : String} {p : Property ApiType}
    (h : succeeds [] (declareFunction ns p) = true) : functionEffect ns p ≠ some true := by
  rw [succeeds_declareFunction] at h
  unfold functionEffect
  cases ho : overloads? ns p with
  | none => nofun
  | some result =>
    rw [ho] at h
    cases result with
    | error err => nofun
    | ok signatures =>
      simp only at h ⊢
      rw [stopsLater_of_all h]
      nofun

/-- A namespace that mutes announcements cannot be declared. -/
theorem namespaceEffect_ne_of_succeeds {options : RenderOptions} {ns : Namespace}
    (h : succeeds [] (declareNamespace options ns) = true) :
    namespaceEffect options ns ≠ some true := by
  rw [succeeds_declareNamespace, Bool.and_eq_true, List.all_eq_true] at h
  unfold namespaceEffect
  rw [if_pos h.1]
  intro heffect
  obtain ⟨p, hp, hmutes⟩ := (lastEffect_eq_some_true_iff fun p _ hok =>
    functionEffect_ne_of_succeeds hok).1 heffect
  exact functionEffect_ne_of_succeeds (h.2 p hp.mem) hmutes

/-- What rendering namespaces does to muting. -/
def batchEffect (options : RenderOptions) (namespaces : List Namespace) : Option Bool :=
  lastEffect (fun ns => succeeds [] (declareNamespace options ns)) (namespaceEffect options)
    (visibleNamespaces namespaces)

theorem steady_declareNamespaces (options : RenderOptions) (namespaces : List Namespace) :
    Steady [] (declareNamespaces options namespaces) (batchEffect options namespaces) :=
  (Steady.mapM (steady_declareNamespace options) (visibleNamespaces namespaces)).bind_pure _

/-! ### How far a rendering gets -/

/-- Rendering namespaces gets to the overloads of a function: every namespace before its own is
declared, and in its own everything before it. -/
def GetsTo (options : RenderOptions) (namespaces : List Namespace)
    (signatures : List (Signature Deferred)) : Prop :=
  ∃ ns p,
    Comes (fun ns => succeeds [] (declareNamespace options ns)) (visibleNamespaces namespaces) ns ∧
    reachesFunctions options ns = true ∧
    Comes (fun p => succeeds [] (declareFunction ns.name p)) (groups options ns).2.2 p ∧
    overloads? ns.name p = some (.ok signatures)

variable {options : RenderOptions} {namespaces : List Namespace}

theorem functionEffect_eq_some_iff {ns : String} {p : Property ApiType} {muted : Bool} :
    functionEffect ns p = some muted ↔
      ∃ signatures, overloads? ns p = some (.ok signatures) ∧ stopsLater signatures = muted := by
  unfold functionEffect
  cases ho : overloads? ns p with
  | none => simp
  | some result => cases result <;> simp

/-- A rendering mutes announcements if it stops at an overload after the first. -/
theorem batchEffect_eq_some_true_iff :
    batchEffect options namespaces = some true ↔
      ∃ signatures, GetsTo options namespaces signatures ∧ stopsLater signatures = true := by
  unfold batchEffect
  rw [lastEffect_eq_some_true_iff fun ns _ hok => namespaceEffect_ne_of_succeeds hok]
  constructor
  · rintro ⟨ns, hns, heffect⟩
    unfold namespaceEffect at heffect
    split_ifs at heffect with hreaches
    obtain ⟨p, hp, hmutes⟩ := (lastEffect_eq_some_true_iff fun p _ hok =>
      functionEffect_ne_of_succeeds hok).1 heffect
    obtain ⟨signatures, hsig, hstops⟩ := functionEffect_eq_some_iff.1 hmutes
    exact ⟨signatures, ⟨ns, p, hns, hreaches, hp, hsig⟩, hstops⟩
  · rintro ⟨signatures, ⟨ns, p, hns, hreaches, hp, hsig⟩, hstops⟩
    refine ⟨ns, hns, ?_⟩
    unfold namespaceEffect
    rw [if_pos hreaches]
    exact (lastEffect_eq_some_true_iff fun p _ hok => functionEffect_ne_of_succeeds hok).2
      ⟨p, hp, functionEffect_eq_some_iff.2 ⟨signatures, hsig, hstops⟩⟩

/-- A rendering leaves muting alone if it gets to no function. -/
theorem batchEffect_eq_none_iff :
    batchEffect options namespaces = none ↔
      ∀ signatures, ¬GetsTo options namespaces signatures := by
  unfold batchEffect
  rw [lastEffect_eq_none_iff]
  constructor
  · rintro h signatures ⟨ns, p, hns, hreaches, hp, hsig⟩
    have hnone := h ns hns
    unfold namespaceEffect at hnone
    rw [if_pos hreaches, lastEffect_eq_none_iff] at hnone
    have heffect := functionEffect_eq_some_iff.2 ⟨signatures, hsig, rfl⟩
    rw [hnone p hp] at heffect
    cases heffect
  · intro h ns hns
    unfold namespaceEffect
    split_ifs with hreaches
    · rw [lastEffect_eq_none_iff]
      intro p hp
      rw [Option.eq_none_iff_forall_ne_some]
      intro muted heffect
      obtain ⟨signatures, hsig, -⟩ := functionEffect_eq_some_iff.1 heffect
      exact h signatures ⟨ns, p, hns, hreaches, hp, hsig⟩
    · rfl

/-- With muted announcements something is not heard of any namespace that is declared. -/
theorem length_symbols_lt (options : RenderOptions) (h : visibleNamespaces namespaces ≠ []) :
    (declareNamespaces options namespaces ⟨[], true⟩).symbols.length <
      (declareNamespaces options namespaces ⟨[], false⟩).symbols.length := by
  obtain ⟨ns, rest, hns⟩ := List.exists_cons_of_ne_nil h
  have hall := Steady.mapM (steady_declareNamespace options) (ns :: rest)
  have hrest := Steady.mapM (steady_declareNamespace options) rest
  unfold declareNamespaces
  dsimp only
  rw [hns]
  refine hall.length_symbols_bind_lt ?_ fun _ => ⟨_, steady_pure _⟩
  rw [List.mapM_cons]
  refine (steady_declareNamespace options ns).length_symbols_bind_lt ?_
    fun _ => ⟨_, hrest.bind_pure _⟩
  -- The announcement of the namespace itself.
  exact (steady_announce _ _ _).length_symbols_bind_lt Nat.zero_lt_one
    fun _ => ⟨_, steady_declareMembers options ns⟩

namespace Renderer

/-- A renderer that has rendered some lists of namespaces, whether it succeeded or not. -/
def after (options : RenderOptions) (earlier : List (List Namespace)) : Renderer :=
  earlier.foldl (fun r namespaces => (r.render namespaces).next) { options := options }

/-- Some rendering stopped at an overload after the first, and none since has got to a function. -/
def LeftMuted (options : RenderOptions) (earlier : List (List Namespace)) : Prop :=
  ∃ before namespaces since, earlier = before ++ namespaces :: since ∧
    (∃ signatures, GetsTo options namespaces signatures ∧ stopsLater signatures = true) ∧
    ∀ later ∈ since, ∀ signatures, ¬GetsTo options later signatures

/-- A renderer with nothing in scope keeps it so, and does to muting what its rendering does. -/
theorem next_render (options : RenderOptions) (muted : Bool) (namespaces : List Namespace) :
    (render ⟨options, [], muted⟩ namespaces).next =
      ⟨options, [], (batchEffect options namespaces).getD muted⟩ :=
  congrArg (Renderer.mk options) ((steady_declareNamespaces options namespaces).state_eq muted)

theorem leftMuted_append_singleton {options : RenderOptions} {earlier : List (List Namespace)}
    {namespaces : List Namespace} :
    LeftMuted options (earlier ++ [namespaces]) ↔
      batchEffect options namespaces = some true ∨
        (batchEffect options namespaces = none ∧ LeftMuted options earlier) := by
  rw [batchEffect_eq_some_true_iff, batchEffect_eq_none_iff]
  constructor
  · rintro ⟨before, batch, since, h, hstops, hsince⟩
    -- The last list is either the one that stopped, or one since then.
    rcases List.eq_nil_or_concat since with rfl | ⟨since, last, rfl⟩
    · obtain ⟨-, hlast⟩ := List.append_inj' h rfl
      cases hlast
      exact .inl hstops
    · rw [List.concat_eq_append] at h hsince
      rw [← List.cons_append, ← List.append_assoc] at h
      obtain ⟨rfl, hlast⟩ := List.append_inj' h rfl
      cases hlast
      exact .inr ⟨hsince _ (by simp), before, batch, since, rfl, hstops, fun later hlater =>
        hsince later (List.mem_append_left _ hlater)⟩
  · rintro (hstops | ⟨hlast, before, batch, since, rfl, hstops, hsince⟩)
    · exact ⟨earlier, namespaces, [], rfl, hstops, nofun⟩
    · refine ⟨before, batch, since ++ [namespaces], by simp, hstops, fun later hlater => ?_⟩
      rcases List.mem_append.1 hlater with hlater | hlater
      · exact hsince later hlater
      · rw [List.mem_singleton.1 hlater]
        exact hlast

/-- **All that a renderer keeps** is whether announcements are muted. -/
theorem exists_after_eq (options : RenderOptions) (earlier : List (List Namespace)) :
    ∃ muted, after options earlier = ⟨options, [], muted⟩ ∧
      (muted = true ↔ LeftMuted options earlier) := by
  induction earlier using List.reverseRecOn with
  | nil =>
    refine ⟨false, rfl, fun h => absurd h Bool.false_ne_true, ?_⟩
    rintro ⟨before, namespaces, since, h, -⟩
    cases before <;> cases h
  | append_singleton earlier namespaces ih =>
    obtain ⟨muted, hafter, hmuted⟩ := ih
    refine ⟨(batchEffect options namespaces).getD muted, ?_, ?_⟩
    · rw [after, List.foldl_append, ← after, hafter]
      exact next_render options muted namespaces
    · rw [leftMuted_append_singleton, ← hmuted]
      cases batchEffect options namespaces <;> simp

/-- **One rendering and the next.** After any renderings, failed ones included, the next one gives
the text that a fresh renderer gives, or the same error. It announces the end of what a fresh
renderer announces. It announces all of it if and only if announcements were not left muted or there
is nothing to declare. -/
theorem render_after (options : RenderOptions) (earlier : List (List Namespace))
    (next : List Namespace) :
    ((after options earlier).render next).text = (render { options := options } next).text ∧
    ((after options earlier).render next).symbols <:+ (render { options := options } next).symbols ∧
    (((after options earlier).render next).symbols = (render { options := options } next).symbols ↔
      ¬(LeftMuted options earlier ∧ visibleNamespaces next ≠ [])) := by
  obtain ⟨muted, hafter, hmuted⟩ := exists_after_eq options earlier
  have hsteady := steady_declareNamespaces options next
  rw [hafter, ← hmuted]
  refine ⟨congrArg (Except.map fun d : Document => d.text options.indent)
    (hsteady.result_eq muted), ?_, ?_⟩
  · cases muted with
    | false => exact List.suffix_rfl
    | true => exact hsteady.suffix
  · cases muted with
    | false => exact ⟨fun _ h => absurd h.1 Bool.false_ne_true, fun _ => rfl⟩
    | true =>
      constructor
      · rintro heq ⟨-, hne⟩
        have hlt := length_symbols_lt options hne
        exact absurd (congrArg List.length heq) hlt.ne
      · intro h
        have hnil : visibleNamespaces next = [] := by
          by_contra hne
          exact h ⟨rfl, hne⟩
        show (declareNamespaces options next ⟨[], true⟩).symbols =
          (declareNamespaces options next ⟨[], false⟩).symbols
        unfold declareNamespaces
        rw [hnil]
        rfl

/-- A function that can be declared as a promise, but not with a callback: a template parameter
takes the place of the callback, and is not in scope. -/
def stoppedFunction : Namespace where
  name := "events.Event"
  members := [.plain "addListener"
    (.function [] none (some (.plain "callback" (.function [] none none false)))
    false)]

/-- A namespace that can be declared. -/
def plainType : Namespace where
  name := "b"
  members := [{ isType := true, name := "T", type := .primitive .string }]

/-- After the function nothing is heard of the namespace. -/
theorem symbols_after_stoppedFunction :
    ((after {} [[stoppedFunction]]).render [plainType]).symbols = [] ∧
      (render {} [plainType]).symbols ≠ [] := by
  constructor
  · decide +kernel
  · decide +kernel

end Renderer

end ApiTypings
