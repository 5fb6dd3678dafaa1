import ApiTypings.Proofs.Aggregation
/-!
# Availability tightens along dependencies

A path is available at most where everything that it depends on is. So a query of a path can be
compared with the queries of the `api` features below its root: what is reached from such a feature
is part of what is reached from the root, and a part restricts less than the whole.

* `Closure.exists_collect_of_reaches`: with a closure, that of every id in it can be gathered. It is
  for another path, but the path is only told in errors (`FeatureTable.resolve?_about`).
* `Availability.Aggregates.tighter`: of two sets of definitions the larger one leaves less.
* `Resolver.query_tightens` is the main result.
-/

namespace ApiTypings

/-! ### The path in question is told in errors only -/

/-- The error as it is told of another path. Only an ambiguity tells for which path it was met. -/
def FeatureError.about (path : String) : FeatureError → FeatureError
  | .ambiguous id _ variants => .ambiguous id path variants
  | e => e

theorem Definition.merge_about (id path path' : String) (variants : List Definition) :
    (merge id path variants).mapError (FeatureError.about path') = merge id path' variants := by
  unfold merge
  split
  · rfl
  · rfl
  · cases mergeIdentical? variants with
    | some merged => rfl
    | none =>
      dsimp only
      split <;> rfl

namespace FeatureTable

variable (t : FeatureTable) (path path' : String)

theorem parentVariant_about (id : String) (variants : List Definition) :
    (parentVariant id path variants).mapError (FeatureError.about path') =
      parentVariant id path' variants := by
  unfold parentVariant
  split
  · rfl
  · cases variants.find? (·.isDefaultParent) with
    | some marked => rfl
    | none => exact Definition.merge_about id path path' variants

theorem inherited?_about (ids : List String) :
    (t.inherited? path ids).mapError (FeatureError.about path') = t.inherited? path' ids := by
  induction ids with
  | nil => rfl
  | cons id rest ih =>
    unfold inherited?
    split
    · exact ih
    · rw [mapError_bind, parentVariant_about]
      refine bind_congr fun selected => ?_
      split_ifs
      · rfl
      · rw [mapError_bind, ih]
        exact bind_congr fun parent => (by cases parent <;> rfl)

/-- **An id is resolved alike for every path**, or fails alike. -/
theorem resolve?_about (id : String) :
    (t.resolve? path id).mapError (FeatureError.about path') = t.resolve? path' id := by
  unfold resolve?
  split
  · rfl
  · rw [mapError_bind, Definition.merge_about]
    refine bind_congr fun merged => ?_
    split_ifs
    · rfl
    · rw [mapError_bind, inherited?_about]
      exact bind_congr fun parent => (by cases parent <;> rfl)

variable {t path}

theorem resolve?_of_path {id : String} {d : Option Definition} (h : t.resolve? path id = .ok d)
    (path' : String) : t.resolve? path' id = .ok d := by
  rw [← resolve?_about t path path', h]
  rfl

end FeatureTable

/-! ### Closures inside a closure -/

namespace Closure

open FeatureTable

variable {t : FeatureTable} {path root : String} {c : Closure}

/-- No more is gathered than there was room for. -/
theorem length_of_extend_eq_ok {room : Nat} {queue : List String} {c c' : Closure}
    (h : extend t path room queue c = .ok c') : c'.nodes.length ≤ c.nodes.length + room := by
  induction room generalizing queue c with
  | zero =>
    unfold extend at h
    split at h
    · cases h
      exact Nat.le_refl _
    · cases h
  | succ room ih =>
    unfold extend at h
    split at h
    · cases h
      exact Nat.le_add_right _ _
    · obtain ⟨d, -, h⟩ := bind_eq_ok_iff.1 h
      have hle := ih h
      simp only [push, List.length_append, List.length_singleton] at hle
      omega

namespace Complete

/-- What is reached in a complete closure can be resolved, for every path, to what it is there. -/
theorem resolve_of_path (h : Complete t path root c) {id : String} (hid : t.Reaches path root id)
    (path' : String) : t.resolve? path' id = .ok (c.definition? id) :=
  resolve?_of_path (h.resolve_eq (h.breadthFirst.mem_iff.2 hid)) path'

/-- What is reached has the same dependencies for every path. -/
theorem dependsOn_of_path_iff (h : Complete t path root c) {id : String}
    (hid : t.Reaches path root id) {path' dep : String} :
    FeatureTable.DependsOn t path' id dep ↔ FeatureTable.DependsOn t path id dep := by
  rw [FeatureTable.DependsOn, FeatureTable.DependsOn, dependenciesOf_eq (h.resolve_of_path hid path'),
    dependenciesOf_eq (h.resolve_of_path hid path)]

/-- What is reached further on, for whatever path, is reached. -/
theorem reaches_of_path (h : Complete t path root c) {id id' path' : String}
    (hid : t.Reaches path root id) (hreach : t.Reaches path' id id') : t.Reaches path root id' := by
  induction hreach with
  | refl => exact hid
  | tail _ hdep ih => exact ih.tail ((h.dependsOn_of_path_iff ih).1 hdep)

end Complete

/-- **Every id of a closure has a closure.** It is part of the first, with the same definitions. -/
theorem exists_collect_of_reaches (hc : collect t path root = .ok c) {id : String}
    (hid : t.Reaches path root id) (path' : String) :
    ∃ c', collect t path' id = .ok c' ∧ Complete t path' id c' ∧
      ∀ id' ∈ c'.order, id' ∈ c.order ∧ c'.definition? id' = c.definition? id' := by
  have hcomplete := complete_of_collect_eq_ok hc
  have hsub : {id' | t.Reaches path' id id'} ⊆ {id' | t.Reaches path root id'} :=
    fun id' hid' => hcomplete.reaches_of_path hid hid'
  have hsize : {id' | t.Reaches path' id id'}.encard ≤ maxClosure := by
    refine (Set.encard_le_encard hsub).trans ?_
    rw [hcomplete.encard_reaches, length_order]
    have hlen := length_of_extend_eq_ok hc
    rw [List.length_nil, Nat.zero_add] at hlen
    exact Nat.cast_le.2 hlen
  obtain ⟨c', hc', hcomplete'⟩ := exists_collect_eq_ok (fun id' hid' id'' n he => by
    rw [hcomplete.resolve_of_path (hsub hid') path'] at he
    cases he) hsize
  refine ⟨c', hc', hcomplete', fun id' hid' => ?_⟩
  have hreach := hcomplete'.breadthFirst.mem_iff.1 hid'
  refine ⟨hcomplete.breadthFirst.mem_iff.2 (hsub hreach), ?_⟩
  exact Except.ok.inj <|
    (hcomplete'.resolve_eq hid').symm.trans (hcomplete.resolve_of_path (hsub hreach) path')

/-- Where nothing leads back to itself, nothing does in a closure inside. -/
theorem checkAcyclic_of_reaches {c' : Closure} {id path' : String} (h : Complete t path root c)
    (h' : Complete t path' id c') (hid : t.Reaches path root id)
    (hacyclic : c.checkAcyclic root = .ok ()) : c'.checkAcyclic id = .ok () := by
  rw [h.checkAcyclic_eq_ok_iff] at hacyclic
  rw [h'.checkAcyclic_eq_ok_iff]
  intro a ha hcycle
  have hreach := h.reaches_of_path hid ha
  -- All that is met on a cycle is reached, so the cycle is there for either path.
  have hboth : ∀ b, Relation.TransGen (t.DependsOn path') a b →
      Relation.TransGen (t.DependsOn path) a b := by
    intro b hab
    induction hab with
    | single hdep => exact .single ((h.dependsOn_of_path_iff hreach).1 hdep)
    | tail hab hdep ih =>
      have hb := h.reaches_of_path hreach hab.to_reflTransGen
      exact ih.tail ((h.dependsOn_of_path_iff hb).1 hdep)
  exact hacyclic a hreach (hboth a hcycle)

end Closure

/-! ### Tighter availability -/

/-- What passes the one passes the other, where everything is more than any set of names. -/
def AllowSet.Within : AllowSet → AllowSet → Prop
  | _, all => True
  | all, only _ => False
  | only a, only b => ∀ x ∈ a, x ∈ b

namespace Availability

/-- Of two availabilities the first is the tighter one: it demands what the second demands and
admits no more. -/
structure Tighter (a b : Availability) : Prop where
  channel : b.channel ≤ a.channel
  permissions : ∀ x ∈ b.permissions, x ∈ a.permissions
  manifestKeys : ∀ x ∈ b.manifestKeys, x ∈ a.manifestKeys
  contexts : a.contexts.Within b.contexts
  extensionTypes : a.extensionTypes.Within b.extensionTypes
  minManifestVersion : ∀ n, b.minManifestVersion = some n →
    ∃ m, a.minManifestVersion = some m ∧ n ≤ m
  maxManifestVersion : ∀ n, b.maxManifestVersion = some n →
    ∃ m, a.maxManifestVersion = some m ∧ m ≤ n
  disallowForServiceWorkers :
    b.disallowForServiceWorkers = true → a.disallowForServiceWorkers = true

end Availability

/-- More restrictions let no more pass. -/
theorem AllowSet.IsMeet.within {sets sets' : WrittenSet → Prop} {meet meet' : AllowSet}
    (h : IsMeet sets meet) (h' : IsMeet sets' meet') (hsub : ∀ w, sets' w → sets w) :
    meet.Within meet' := by
  cases meet' with
  | all => cases meet <;> trivial
  | only names' =>
    cases meet with
    | all => exact AllowSet.noConfusion (h'.eq_all_iff.2 fun w hw => h.eq_all_iff.1 rfl w (hsub w hw))
    | only names =>
      intro x hx
      have hpass := (h.contains_iff x).1 (NameSet.contains_iff.2 hx)
      exact NameSet.contains_iff.1 ((h'.contains_iff x).2 fun w hw => hpass w (hsub w hw))

/-- A bound of some values is a bound of some of them. -/
theorem IsBound.exists_within {within : Nat → Nat → Prop} {values values' : Nat → Prop}
    {bound bound' : Option Nat} (h : IsBound within values bound)
    (h' : IsBound within values' bound') (hsub : ∀ n, values' n → values n) {n : Nat}
    (hn : bound' = some n) : ∃ m, bound = some m ∧ within n m := by
  have hvalue : values n := hsub n (h'.attained n hn)
  cases hb : bound with
  | none => exact absurd hvalue (h.eq_none_iff.1 hb n)
  | some m => exact ⟨m, rfl, h.within_bound m hb n hvalue⟩

section

variable {S T : String → Definition → Prop}

theorem Sets.mono {α : Type} {field : Definition → Option α} (hsub : ∀ id d, S id d → T id d)
    {v : α} (h : Sets S field v) : Sets T field v := by
  obtain ⟨id, d, hS, hv⟩ := h
  exact ⟨id, d, hsub id d hS, hv⟩

/-- **More definitions leave less.** -/
theorem Availability.Aggregates.tighter {a b : Availability} (ha : a.Aggregates T)
    (hb : b.Aggregates S) (hsub : ∀ id d, S id d → T id d) : a.Tighter b where
  channel := by
    refine ha.channel.2 ?_
    rcases hb.channel.1 with hstable | ⟨id, d, hS, hd⟩
    · exact .inl hstable
    · exact .inr ⟨id, d, hsub id d hS, hd⟩
  permissions x hx := by
    obtain ⟨id, d, hS, hid⟩ := (hb.permissions x).1 hx
    exact (ha.permissions x).2 ⟨id, d, hsub id d hS, hid⟩
  manifestKeys x hx := by
    obtain ⟨id, d, hS, hid⟩ := (hb.manifestKeys x).1 hx
    exact (ha.manifestKeys x).2 ⟨id, d, hsub id d hS, hid⟩
  contexts := ha.contexts.within hb.contexts fun _ => Sets.mono hsub
  extensionTypes := ha.extensionTypes.within hb.extensionTypes fun _ => Sets.mono hsub
  minManifestVersion _ :=
    ha.minManifestVersion.exists_within hb.minManifestVersion fun _ => Sets.mono hsub
  maxManifestVersion _ :=
    ha.maxManifestVersion.exists_within hb.maxManifestVersion fun _ => Sets.mono hsub
  disallowForServiceWorkers h :=
    ha.disallowForServiceWorkers.2 ((hb.disallowForServiceWorkers.1 h).mono hsub)

/-- Where something is left by more definitions, something is left. -/
theorem Bounds.availability?_of_aggregates {b b' : Bounds} {a : Availability}
    (hb : b.toAvailability.Aggregates T) (hb' : b'.toAvailability.Aggregates S)
    (hsub : ∀ id d, S id d → T id d) (h : b.availability? = some a) :
    b'.availability? = some b'.toAvailability := by
  obtain ⟨⟨⟨x, hx⟩, ⟨y, hy⟩, hversions⟩, -⟩ := (availability?_eq_some_iff hb).1 h
  refine (availability?_eq_some_iff hb').2 ⟨⟨⟨x, fun w hw => ?_⟩, ⟨y, fun w hw => ?_⟩, ?_⟩, rfl⟩
  · exact hx w (hw.mono hsub)
  · exact hy w (hw.mono hsub)
  · exact fun lo hi hlo hhi => hversions lo hi (hlo.mono hsub) (hhi.mono hsub)

end

/-! ### Gathering a part -/

namespace Resolver

variable {r : Resolver} {path root : String}

/-- Everything is gathered exactly if every id has a known prefix and a definition that passes the
gates. -/
theorem exists_gather_eq_some_iff {c : Closure} {ids : List String} {b : Bounds} :
    (∃ b', r.gather c ids b = .ok (some b')) ↔
      ∀ id ∈ ids, (∃ kindName, FeatureKind.splitId id = .ok kindName) ∧
        ∃ d, c.definition? id = some d ∧ r.options.gate? d = none := by
  induction ids generalizing b with
  | nil => exact ⟨fun _ _ hid => absurd hid List.not_mem_nil, fun _ => ⟨b, rfl⟩⟩
  | cons id ids ih =>
    rw [List.forall_mem_cons]
    unfold gather
    cases hd : c.definition? id with
    | none => simp
    | some d =>
      cases hgate : r.options.gate? d with
      | some gate => simp [hgate]
      | none =>
        simp only [Option.isSome_none, Bool.false_eq_true, if_false, bind_eq_ok_iff,
          Bounds.absorb, Option.some.injEq, exists_eq_left', hgate, and_true]
        constructor
        · rintro ⟨b', _, ⟨kindName, hsplit, -⟩, h⟩
          exact ⟨⟨kindName, hsplit⟩, ih.1 ⟨b', h⟩⟩
        · rintro ⟨⟨kindName, hsplit⟩, hrest⟩
          obtain ⟨b', h⟩ := ih.2 hrest
          exact ⟨b', _, ⟨kindName, hsplit, rfl⟩, h⟩

/-- What is gathered of a closure aggregates the definitions in it. -/
theorem aggregates_of_gather {c : Closure} {b : Bounds}
    (h : r.gather c c.order {} = .ok (some b)) :
    b.toAvailability.Aggregates fun id d => id ∈ c.order ∧ c.definition? id = some d := by
  rcases gather_cases h Availability.Aggregates.empty with ⟨hnone, -⟩ | ⟨b', hb', -, hagg, -⟩
  · cases hnone
  · cases hb'
    simpa only [false_or] using hagg

/-! ### Main result -/

/-- A feature that is defined is the root of its own name. -/
theorem root?_of_definition {x : String} {d : Definition}
    (h : r.table.resolve? path (FeatureKind.api.id x) = .ok (some d)) :
    r.root? x = some (FeatureKind.api.id x) := by
  have hcontains := FeatureTable.contains_of_resolve? h
  simp only [root?, ancestors, List.find?_cons, hcontains, Option.map_some]

/-- An `api` feature that an available path depends on is available under its own name, and no
tighter. -/
theorem exists_query_of_reaches {a : Availability} (hroot : r.root? path = some root)
    (h : r.query path = .ok (some a)) {x : String}
    (hx : r.table.Reaches path root (FeatureKind.api.id x)) :
    ∃ b, r.query x = .ok (some b) ∧ a.Tighter b := by
  obtain ⟨c, b, hc, hacyclic, hg, ha⟩ := (query_eq_some_iff hroot).1 h
  obtain ⟨a', ha', rfl⟩ := Option.map_eq_some_iff.1 ha
  have hcomplete := Closure.complete_of_collect_eq_ok hc
  have hall := exists_gather_eq_some_iff.1 ⟨b, hg⟩
  -- The closure of the feature is part of that of the path, so it passes all checks again.
  obtain ⟨c', hc', hcomplete', hpart⟩ := Closure.exists_collect_of_reaches hc hx x
  have hacyclic' := Closure.checkAcyclic_of_reaches hcomplete hcomplete' hx hacyclic
  obtain ⟨b', hg'⟩ : ∃ b', r.gather c' c'.order {} = .ok (some b') := by
    refine exists_gather_eq_some_iff.2 fun id hid => ?_
    obtain ⟨hmem, hd⟩ := hpart id hid
    rw [hd]
    exact hall id hmem
  have hagg := aggregates_of_gather hg
  have hagg' := aggregates_of_gather hg'
  have hsub : ∀ id d, (id ∈ c'.order ∧ c'.definition? id = some d) →
      id ∈ c.order ∧ c.definition? id = some d := by
    rintro id d ⟨hid, hd⟩
    obtain ⟨hmem, heq⟩ := hpart id hid
    exact ⟨hmem, heq ▸ hd⟩
  have hleft := Bounds.availability?_of_aggregates hagg hagg' hsub ha'
  obtain ⟨-, rfl⟩ := (Bounds.availability?_eq_some_iff hagg).1 ha'
  obtain ⟨-, d, hd, -⟩ := hall _ (hcomplete.breadthFirst.mem_iff.2 hx)
  have hroot' := root?_of_definition (hd ▸ hcomplete.resolve_of_path hx path)
  refine ⟨r.dated x b'.toAvailability, (query_eq_some_iff hroot').2
    ⟨c', b', hc', hacyclic', hg', by rw [hleft]; rfl⟩, ?_⟩
  exact (aggregates_dated hagg).tighter (aggregates_dated hagg') hsub

/-- **Availability only tightens along dependencies.** If a path is available, then every `api`
feature that is reached from its root is available, and the path is no more widely available than
the feature. So a path that depends on a feature that is not available is not available itself, or
its query fails. -/
theorem query_tightens (r : Resolver) {path root x : String} (hroot : r.root? path = some root)
    (hx : r.table.Reaches path root (FeatureKind.api.id x)) :
    (∀ a, r.query path = .ok (some a) → ∃ b, r.query x = .ok (some b) ∧ a.Tighter b) ∧
    (r.query x = .ok none → r.query path = .ok none ∨ ∃ e, r.query path = .error e) := by
  refine ⟨fun a h => exists_query_of_reaches hroot h hx, fun hnone => ?_⟩
  cases hquery : r.query path with
  | error e => exact .inr ⟨e, rfl⟩
  | ok answer =>
    cases answer with
    | none => exact .inl rfl
    | some a =>
      obtain ⟨b, hb, -⟩ := exists_query_of_reaches hroot hquery hx
      rw [hnone] at hb
      cases hb

/-- A feature that depends on a wider one, and a feature that depends on an internal one. -/
def layeredFeatures : Resolver where
  table := ⟨[("api:menus", [{ dependencies := some ["permission:menus", "api:tabs"] }]),
    ("permission:menus", [{ contexts := some (.list ["popup"]) }]),
    ("api:tabs", [{ channel := some .beta, minManifestVersion := some 2 }]),
    ("api:panels", [{ dependencies := some ["api:frames"] }]),
    ("api:frames", [{ internal := some true }])]⟩

/-- The first has what it depends on and more, the second is not available. -/
theorem query_layeredFeatures :
    layeredFeatures.root? "menus.create" = some "api:menus" ∧
    layeredFeatures.table.Reaches "menus.create" "api:menus" (FeatureKind.api.id "tabs") ∧
    (∃ a b, layeredFeatures.query "menus.create" = .ok (some a) ∧
      layeredFeatures.query "tabs" = .ok (some b) ∧ a.Tighter b ∧ a.permissions ≠ b.permissions) ∧
    layeredFeatures.table.Reaches "panels" "api:panels" (FeatureKind.api.id "frames") ∧
    layeredFeatures.query "frames" = .ok none ∧ layeredFeatures.query "panels" = .ok none := by
  have hmenus : layeredFeatures.root? "menus.create" = some "api:menus" := by rfl
  have hpanels : layeredFeatures.root? "panels" = some "api:panels" := by rfl
  have htabs : layeredFeatures.table.Reaches "menus.create" "api:menus" (FeatureKind.api.id "tabs") :=
    .single (List.mem_cons_of_mem _ (List.mem_singleton_self _))
  have hframes : layeredFeatures.table.Reaches "panels" "api:panels" (FeatureKind.api.id "frames") :=
    .single (List.mem_singleton_self _)
  have hnone : layeredFeatures.query "frames" = .ok none := by rfl
  obtain ⟨a, ha, hpermissions⟩ : ∃ a, layeredFeatures.query "menus.create" = .ok (some a) ∧
      a.permissions = NameSet.ofList ["menus"] := ⟨_, rfl, rfl⟩
  obtain ⟨b, hb, htighter⟩ := (query_tightens layeredFeatures hmenus htabs).1 a ha
  have hempty : b.permissions = .empty := by
    have hquery : layeredFeatures.query "tabs" = .ok (some {
        channel := .beta, minManifestVersion := some 2, unknownVersion := true }) := by rfl
    cases hb.symm.trans hquery
    rfl
  refine ⟨hmenus, htabs, ⟨a, b, ha, hb, htighter, ?_⟩, hframes, hnone, ?_⟩
  · rw [hpermissions, hempty]
    decide
  · rcases (query_tightens layeredFeatures hpanels hframes).2 hnone with h | ⟨e, he⟩
    · exact h
    · have hquery : layeredFeatures.query "panels" = .ok none := by rfl
      rw [hquery] at he
      cases he

end Resolver

end ApiTypings
