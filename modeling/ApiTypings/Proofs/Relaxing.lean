import ApiTypings.Proofs.CyclicDependencies
import ApiTypings.Proofs.Marking
/-!
# With fewer gates more is shown

Gates only ever take away. If a resolver is relaxed, so that it has no gate that it had not before,
then a query answers what it answered before unless a gate had closed
(`Resolver.query_relaxed`). So two prunings of one namespace differ in what only the relaxed one
shows: what is left by the stricter one is part of what is left by the other
(`ApiType.PartOf`), with the same availability, the same annotation and the same deprecation.

The surroundings that the two walks hand on are the same, or the stricter walk has none
(`Resolver.Relaxed`). That is the invariant of the comparison.
-/

namespace ApiTypings

/-! ### Parts of a pruned type -/

namespace ApiType

mutual

/-- Every property of the one type is a property of the other, at the same place and in the same
order. What is shown has the same traits. -/
inductive PartOf : ApiType → ApiType → Prop
  | primitive {word : Primitive} : PartOf (.primitive word) (.primitive word)
  | literal {value : Literal} : PartOf (.literal value) (.literal value)
  | number {integer : Bool} {minimum maximum : Option Double} :
      PartOf (.number integer minimum maximum) (.number integer minimum maximum)
  | reference {target : Reference} {arguments arguments' : List ApiType}
      (ha : List.Forall₂ PartOf arguments arguments') :
      PartOf (.reference target arguments) (.reference target arguments')
  | sequence {element element' : ApiType} {min : Nat} {max : Option Nat}
      (he : PartOf element element') : PartOf (.sequence element min max) (.sequence element' min max)
  | object {properties properties' : List (Property ApiType)} {index : Option ApiType}
      {templates instanceType : Option String}
      (hp : List.SublistForall₂ KeptIn properties properties') :
      PartOf (.object properties index templates instanceType)
        (.object properties' index templates instanceType)
  | intersection {items items' : List ApiType} (hi : List.Forall₂ PartOf items items') :
      PartOf (.intersection items) (.intersection items')
  | choices {items items' : List ApiType} (hi : List.Forall₂ PartOf items items') :
      PartOf (.choices items) (.choices items')
  /-- A function may lose its completion callback, but not its result. -/
  | function {parameters parameters' : List (Property ApiType)}
      {returns returns' completion completion' : Option (Property ApiType)} {callbackOnly : Bool}
      (hp : List.SublistForall₂ KeptIn parameters parameters')
      (hr : List.Forall₂ KeptIn returns.toList returns'.toList)
      (hc : List.SublistForall₂ KeptIn completion.toList completion'.toList) :
      PartOf (.function parameters returns completion callbackOnly)
        (.function parameters' returns' completion' callbackOnly)

/-- The property `p` is `q`, if it is shown, and its type is part of that of `q`. -/
inductive KeptIn : Property ApiType → Property ApiType → Prop
  | mk {p q : Property ApiType} (name_eq : q.name = p.name)
      (toTraits_eq : p.nodoc = false → q.toTraits = p.toTraits) (type : PartOf p.type q.type) :
      KeptIn p q

end

end ApiType

/-- The one namespace is the other one, if it is shown, with some of its members. -/
structure Namespace.PartOf (n n' : Namespace) : Prop where
  name_eq : n'.name = n.name
  members : List.SublistForall₂ ApiType.KeptIn n.members n'.members
  rest_eq : n.nodoc = false → { n' with members := n.members } = n

/-! ### Relaxed queries -/

/-- The gates of `relaxed` are among those of `options`. -/
structure ResolverOptions.Relaxes (relaxed options : ResolverOptions) : Prop where
  nonRegularSessions :
    relaxed.rejectNonRegularSessions = true → options.rejectNonRegularSessions = true
  internal : relaxed.rejectInternal = true → options.rejectInternal = true

/-- What passes the gates passes fewer gates. -/
theorem ResolverOptions.Relaxes.gate?_eq_none {relaxed options : ResolverOptions}
    (h : relaxed.Relaxes options) {d : Definition} (hd : options.gate? d = none) :
    relaxed.gate? d = none := by
  obtain ⟨hsessions, hinternal⟩ := h
  unfold gate? at hd ⊢
  grind

namespace Resolver

variable {r : Resolver} {relaxed : ResolverOptions}

/-- The resolver with other gates. -/
def withOptions (r : Resolver) (options : ResolverOptions) : Resolver :=
  { r with options }

@[simp]
theorem table_withOptions : (r.withOptions relaxed).table = r.table :=
  rfl

@[simp]
theorem options_withOptions : (r.withOptions relaxed).options = relaxed :=
  rfl

@[simp]
theorem root?_withOptions (path : String) : (r.withOptions relaxed).root? path = r.root? path :=
  rfl

@[simp]
theorem dated_withOptions (path : String) : (r.withOptions relaxed).dated path = r.dated path :=
  rfl

/-- Definitions are gathered alike, unless a gate closes that is not always in use. -/
theorem gather_relaxed (h : relaxed.Relaxes r.options) (c : Closure) (ids : List String)
    (b : Bounds) :
    r.gather c ids b = .ok none ∨ (r.withOptions relaxed).gather c ids b = r.gather c ids b := by
  induction ids generalizing b with
  | nil => exact .inr rfl
  | cons id ids ih =>
    unfold gather
    cases c.definition? id with
    | none => exact .inl rfl
    | some d =>
      cases hgate : r.options.gate? d with
      | some gate => exact .inl (by simp [hgate])
      | none =>
        simp only [options_withOptions, hgate, h.gate?_eq_none hgate, Option.isSome_none,
          Bool.false_eq_true, if_false]
        cases b.absorb id d with
        | error e => exact .inr rfl
        | ok b' => exact ih b'

/-- **A relaxed query answers as before**, unless the path was not available. -/
theorem query_relaxed (h : relaxed.Relaxes r.options) (path : String) :
    r.query path = .ok none ∨ (r.withOptions relaxed).query path = r.query path := by
  cases hroot : r.root? path with
  | none => exact .inl (query_eq_of_root_eq_none hroot)
  | some root =>
    rw [query_eq_of_root hroot, query_eq_of_root ((root?_withOptions path).trans hroot),
      table_withOptions, dated_withOptions]
    -- The two are the same up to the gates, and stop with the same errors.
    cases Closure.collect r.table path root with
    | error e => exact .inr rfl
    | ok c =>
      rcases gather_relaxed h c c.order {} with hnone | heq
      · cases hc : c.checkAcyclic root with
        | error e => exact .inr (by simp only [bind, Except.bind, hc])
        | ok _ => exact .inl (by simp only [bind, Except.bind, hc, hnone]; rfl)
      · exact .inr (by simp only [bind, Except.bind, heq])

end Resolver

/-! ### Relaxed walks -/

/-- What passes one filter is left between what passes the other, if that lets more pass. -/
theorem sublistForall₂_filter {α : Type} {R : α → α → Prop} {p : α → Bool} {xs ys : List α}
    (h : List.Forall₂ R xs ys) (hp : ∀ x y, R x y → p x = true → p y = true) :
    List.SublistForall₂ R (xs.filter p) (ys.filter p) := by
  induction h with
  | nil => exact .nil
  | @cons x y xs ys hR _ ih =>
    by_cases hx : p x = true
    · rw [List.filter_cons_of_pos hx, List.filter_cons_of_pos (hp x y hR hx)]
      exact .cons hR ih
    · rw [List.filter_cons_of_neg hx]
      by_cases hy : p y = true
      · rw [List.filter_cons_of_pos hy]
        exact .cons_right ih
      · rw [List.filter_cons_of_neg hy]
        exact ih

namespace Resolver

/-- Of one thing handed on by two walks: it is the same, or the stricter walk has nothing. -/
def Relaxed {α : Type} (strict relaxed : Option α) : Prop :=
  strict = none ∨ relaxed = strict

end Resolver

open Resolver

variable {r : Resolver} {relaxed : ResolverOptions}

/-- The verdict of the relaxed walk is the same, or the stricter walk hides the property. -/
theorem Verdict.exists_of_relaxed (h : relaxed.Relaxes r.options) {s s' : Option Surroundings}
    (hs : Relaxed s s') {old : Traits} {name : String} {v' : Verdict}
    (hv' : Verdict.of (r.withOptions relaxed) s' old name = .ok v') :
    ∃ v, Verdict.of r s old name = .ok v ∧ (v = .hidden ∨ v' = v) := by
  unfold Verdict.of at hv' ⊢
  rcases hs with rfl | rfl
  · exact ⟨.hidden, rfl, .inl rfl⟩
  · cases s' with
    | none => exact ⟨.hidden, rfl, .inl rfl⟩
    | some parent =>
      dsimp only at hv' ⊢
      split_ifs at hv' ⊢
      · exact ⟨.hidden, rfl, .inl rfl⟩
      · rcases query_relaxed h (member parent.path name) with hnone | heq
        · rw [hnone]
          exact ⟨.hidden, rfl, .inl rfl⟩
        · rw [heq] at hv'
          exact ⟨v', hv', .inr rfl⟩

/-- The verdict is one and the same for both walks, or the stricter one hides the property. -/
theorem Verdict.of_relaxed (h : relaxed.Relaxes r.options) {s s' : Option Surroundings}
    (hs : Relaxed s s') {old : Traits} {name : String} {v v' : Verdict}
    (hv : Verdict.of r s old name = .ok v)
    (hv' : Verdict.of (r.withOptions relaxed) s' old name = .ok v') : v = .hidden ∨ v' = v := by
  obtain ⟨w, hw, hor⟩ := Verdict.exists_of_relaxed h hs hv'
  obtain rfl : v = w := Except.ok.inj (hv.symm.trans hw)
  exact hor

theorem Verdict.relaxed_below {v v' : Verdict} (h : v = .hidden ∨ v' = v) (old : Traits) :
    Relaxed (v.below old) (v'.below old) := by
  rcases h with rfl | rfl
  · exact .inl rfl
  · exact .inr rfl

namespace ApiType

variable {s s' : Option Surroundings} {t u u' : ApiType}

/-- **Where the relaxed walk comes to an end, the stricter one does**: it asks less. -/
theorem exists_annotate_of_relaxed (h : relaxed.Relaxes r.options) (hs : Relaxed s s')
    (h' : ∃ u', annotate (r.withOptions relaxed) s' t = .ok u') : ∃ u, annotate r s t = .ok u := by
  induction t using nesting_induction generalizing s s' with
  | step t hparts hnested =>
    rw [exists_annotate_iff_nested] at h' ⊢
    refine ⟨fun a ha => hparts a ha hs (h'.1 a ha), fun p hp => ?_⟩
    obtain ⟨p', hp'⟩ := h'.2 p hp
    obtain ⟨v', type', hv', htype', -⟩ := annotateProperty_eq_ok_iff.1 hp'
    obtain ⟨v, hv, hor⟩ := Verdict.exists_of_relaxed h hs hv'
    obtain ⟨type, htype⟩ := hnested p hp (Verdict.relaxed_below hor p.toTraits) ⟨type', htype'⟩
    exact ⟨_, annotateProperty_eq_ok_iff.2 ⟨v, type, hv, htype, rfl⟩⟩

/-- Of properties side by side the visible ones of the stricter walk are kept by the other. -/
theorem sublistForall₂_visibleProperties {ps ps' : List (Property ApiType)}
    (h : List.Forall₂ (fun p p' => KeptIn (visibleInside p) (visibleInside p')) ps ps') :
    List.SublistForall₂ KeptIn (visibleProperties ps) (visibleProperties ps') := by
  have hshown : ∀ p p' : Property ApiType, KeptIn (visibleInside p) (visibleInside p') →
      (!p.nodoc) = true → (!p'.nodoc) = true := by
    rintro p p' ⟨-, htraits, -⟩ hp
    rw [toTraits_visibleInside, toTraits_visibleInside] at htraits
    rwa [htraits (by simpa using hp)]
  rw [visibleProperties_eq_map, visibleProperties_eq_map, List.sublistForall₂_map_left_iff]
  rw [List.sublistForall₂_map_right_iff]
  exact sublistForall₂_filter h hshown

theorem forall₂_visibleItems {ts ts' : List ApiType}
    (h : List.Forall₂ (fun a a' => PartOf a.visible a'.visible) ts ts') :
    List.Forall₂ PartOf (visibleItems ts) (visibleItems ts') := by
  rwa [visibleItems_eq_map, visibleItems_eq_map, List.forall₂_map_left_iff,
    List.forall₂_map_right_iff]

/-- **What the stricter walk leaves is part of what the relaxed one leaves.** -/
theorem partOf_of_relaxed (h : relaxed.Relaxes r.options) (hs : Relaxed s s')
    (hu : annotate r s t = .ok u) (hu' : annotate (r.withOptions relaxed) s' t = .ok u') :
    PartOf u.visible u'.visible := by
  induction t using nesting_induction generalizing s s' u u' with
  | step t hparts hnested =>
    have hitem : ∀ a ∈ t.parts, ∀ b b', annotate r s a = .ok b →
        annotate (r.withOptions relaxed) s' a = .ok b' → PartOf b.visible b'.visible :=
      fun a ha b b' hb hb' => hparts a ha hs hb hb'
    have hproperty : ∀ p ∈ t.nested, ∀ q q', annotateProperty r s p = .ok q →
        annotateProperty (r.withOptions relaxed) s' p = .ok q' →
          KeptIn (visibleInside q) (visibleInside q') := by
      intro p hp q q' hq hq'
      obtain ⟨v, type, hv, htype, rfl⟩ := annotateProperty_eq_ok_iff.1 hq
      obtain ⟨v', type', hv', htype', rfl⟩ := annotateProperty_eq_ok_iff.1 hq'
      have hor := Verdict.of_relaxed h hs hv hv'
      refine .mk rfl (fun hshown => ?_) ?_
      · rcases hor with rfl | rfl
        · cases hshown
        · rfl
      · exact hnested p hp (Verdict.relaxed_below hor p.toTraits) htype htype'
    cases annotated_of_annotate hu with
    | primitive =>
      cases hu'
      exact .primitive
    | literal =>
      cases hu'
      exact .literal
    | number =>
      cases hu'
      exact .number
    | reference ha =>
      cases annotated_of_annotate hu' with
      | reference ha' => exact .reference (forall₂_visibleItems (forall₂_of_both ha ha' hitem))
    | sequence he =>
      cases annotated_of_annotate hu' with
      | sequence he' => exact .sequence (hitem _ (List.mem_singleton_self _) _ _ he he')
    | object hp =>
      cases annotated_of_annotate hu' with
      | object hp' =>
        exact .object (sublistForall₂_visibleProperties (forall₂_of_both hp hp' hproperty))
    | intersection hi =>
      cases annotated_of_annotate hu' with
      | intersection hi' => exact .intersection (forall₂_visibleItems (forall₂_of_both hi hi' hitem))
    | choices hi =>
      cases annotated_of_annotate hu' with
      | choices hi' => exact .choices (forall₂_visibleItems (forall₂_of_both hi hi' hitem))
    | function hp hr hc =>
      cases annotated_of_annotate hu' with
      | function hp' hr' hc' =>
        have hcallback := forall₂_of_both (forall₂_of_annotateOption hc)
          (forall₂_of_annotateOption hc') fun p hmem => hproperty p (List.mem_append_right _ hmem)
        refine .function (sublistForall₂_visibleProperties ?_) ?_ ?_
        · exact forall₂_of_both hp hp' fun p hmem =>
            hproperty p (List.mem_append_left _ (List.mem_append_left _ hmem))
        · rw [toList_visibleResult, toList_visibleResult, List.forall₂_map_left_iff,
            List.forall₂_map_right_iff]
          exact forall₂_of_both (forall₂_of_annotateOption hr) (forall₂_of_annotateOption hr')
            fun p hmem => hproperty p (List.mem_append_left _ (List.mem_append_right _ hmem))
        · rw [toList_visibleCallback, toList_visibleCallback, ← visibleProperties_eq_map,
            ← visibleProperties_eq_map]
          exact sublistForall₂_visibleProperties hcallback

end ApiType

/-! ### Namespaces -/

namespace Namespace

variable {ns : Namespace}

theorem relaxed_surroundings {answer answer' : Option Availability}
    (h : Relaxed answer answer') : Relaxed (ns.surroundings answer) (ns.surroundings answer') := by
  unfold surroundings
  rcases h with rfl | rfl
  · exact .inl (by simp)
  · exact .inr rfl

/-- What is left of a namespace with less around its members is part of what else is left. -/
theorem partOf_visible {s s' : Option Surroundings} {members members' : List (Property ApiType)}
    (hs : Relaxed s s')
    (hmembers : List.SublistForall₂ ApiType.KeptIn (ApiType.visibleProperties members)
      (ApiType.visibleProperties members')) :
    PartOf (ns.withMembers members s).visible (ns.withMembers members' s').visible := by
  cases s with
  | none =>
    -- A hidden namespace is left without members.
    refine ⟨?_, .nil, fun hshown => absurd hshown.symm Bool.false_ne_true⟩
    rw [name_visible, name_visible, name_withMembers, name_withMembers]
  | some parent =>
    rcases hs with hnone | rfl
    · cases hnone
    · unfold visible withMembers
      cases ns.nodoc with
      | true => exact ⟨rfl, .nil, fun _ => rfl⟩
      | false => exact ⟨rfl, hmembers, fun _ => rfl⟩

/-- **A namespace that is pruned by the relaxed resolver is pruned by the stricter one**, and what is
left is part of what the relaxed one leaves. -/
theorem exists_prune_of_relaxed (h : relaxed.Relaxes r.options) {n' : Namespace}
    (h' : ns.prune (r.withOptions relaxed) = .ok n') : ∃ n, ns.prune r = .ok n ∧ n.PartOf n' := by
  obtain ⟨annotated', ha', rfl⟩ := map_eq_ok_iff.1 h'
  obtain ⟨answer', members', hanswer', hm', rfl⟩ := annotate_eq_ok_iff.1 ha'
  obtain ⟨answer, hanswer, hrelaxed⟩ : ∃ answer, r.query ns.name = .ok answer ∧
      Relaxed answer answer' := by
    rcases query_relaxed h ns.name with hnone | heq
    · exact ⟨none, hnone, .inl rfl⟩
    · exact ⟨answer', heq ▸ hanswer', .inr rfl⟩
  have hs : Relaxed (ns.surroundings answer) (ns.surroundings answer') :=
    relaxed_surroundings hrelaxed
  have hbody' := annotate_body hm'
  obtain ⟨body, hbody⟩ := ApiType.exists_annotate_of_relaxed h hs ⟨_, hbody'⟩
  obtain ⟨members, hm, -⟩ := bind_eq_ok_iff.1 hbody
  have hpart := ApiType.partOf_of_relaxed h hs (annotate_body hm) hbody'
  rw [Namespace.body, Namespace.body, members_withMembers, members_withMembers, ApiType.visible,
    ApiType.visible] at hpart
  cases hpart with
  | object hmembers =>
    have ha : ns.annotate r = .ok (ns.withMembers members (ns.surroundings answer)) :=
      annotate_eq_ok_iff.2 ⟨answer, members, hanswer, hm, rfl⟩
    exact ⟨_, map_eq_ok_iff.2 ⟨_, ha, rfl⟩, partOf_visible hs hmembers⟩

end Namespace

/-! ### Main result -/

namespace Resolver

/-- **Relaxing the gates only adds symbols.** A path that is available stays so with fewer gates, and
its availability is the same. And whatever namespace can be pruned with fewer gates can be pruned
with all of them: what is left is then part of what is left with fewer, with every availability,
every annotation and every deprecation the same. -/
theorem relaxing_adds (r : Resolver) (relaxed : ResolverOptions) (h : relaxed.Relaxes r.options) :
    (∀ path a, r.query path = .ok (some a) →
      (r.withOptions relaxed).query path = .ok (some a)) ∧
    ∀ (ns n' : Namespace), ns.prune (r.withOptions relaxed) = .ok n' →
      ∃ n, ns.prune r = .ok n ∧ n.PartOf n' := by
  refine ⟨fun path a ha => ?_, fun ns n' h' => Namespace.exists_prune_of_relaxed h h'⟩
  rcases query_relaxed h path with hnone | heq
  · rw [hnone] at ha
    cases ha
  · rw [heq, ha]

/-- A type with two properties. -/
def typeWithDetail : Namespace where
  name := "a"
  members := [.plain "T" (.object [.plain "detail" (.primitive .string),
    .plain "title" (.primitive .string)] none none none)]

/-- Features of which one is internal. -/
def internalDetail : Resolver where
  table := ⟨[("api:a", [{ channel := some .beta }]), ("api:a.T.detail", [{ internal := some true }])]⟩

/-- Without the gate for what is internal there is one property more. -/
theorem relaxing_internalDetail :
    ResolverOptions.Relaxes { rejectInternal := false } internalDetail.options ∧
    (∃ a, internalDetail.query "a.T.title" = .ok (some a) ∧
      (internalDetail.withOptions { rejectInternal := false }).query "a.T.title" = .ok (some a)) ∧
    ∃ n n', typeWithDetail.prune internalDetail = .ok n ∧
      typeWithDetail.prune (internalDetail.withOptions { rejectInternal := false }) = .ok n' ∧
      n.PartOf n' ∧ n.lineages.length = 2 ∧ n'.lineages.length = 3 := by
  have hrelaxes : ResolverOptions.Relaxes { rejectInternal := false } internalDetail.options :=
    ⟨fun h => h, fun h => absurd h Bool.false_ne_true⟩
  obtain ⟨hqueries, hprunes⟩ := relaxing_adds internalDetail _ hrelaxes
  obtain ⟨a, ha⟩ : ∃ a, internalDetail.query "a.T.title" = .ok (some a) := ⟨_, rfl⟩
  have hstrict : (typeWithDetail.prune internalDetail).map (fun n => n.lineages.length) = .ok 2 := by
    decide +kernel
  have hrelaxed : (typeWithDetail.prune (internalDetail.withOptions
      { rejectInternal := false })).map (fun n => n.lineages.length) = .ok 3 := by
    decide +kernel
  obtain ⟨n', hn', hthree⟩ := map_eq_ok_iff.1 hrelaxed
  obtain ⟨n, hn, hpart⟩ := hprunes typeWithDetail n' hn'
  rw [hn] at hstrict
  exact ⟨hrelaxes, ⟨a, ha, hqueries _ a ha⟩, n, n', hn, hn', hpart, Except.ok.inj hstrict, hthree⟩

end Resolver

end ApiTypings
