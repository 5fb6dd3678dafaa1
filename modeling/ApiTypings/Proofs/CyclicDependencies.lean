import ApiTypings.Feature.Resolver
import ApiTypings.Proofs.Acyclicity
import ApiTypings.Proofs.Reachability
/-!
# Cyclic dependencies are refused

The availability of a path is decided by the graph of resolved dependencies below the id that the
path starts at. If everything reached can be resolved and is not too much, a query fails with a
cycle exactly if the graph has one (`Resolver.query_cycle_iff`). Gates, missing definitions and
unknown prefixes play no part in this: they are looked at only after the search for cycles.

`Closure.Edge` is a dependency among what was gathered, `FeatureTable.DependsOn` one in the table.
In a complete closure they lead to the same ids.
-/

namespace ApiTypings

namespace Closure.Complete

open FeatureTable

variable {t : FeatureTable} {path root : String} {c : Closure}

/-! ### Dependencies in the closure and in the table -/

theorem edge_iff (h : Complete t path root c) {a b : String} (ha : a ∈ c.order) :
    c.Edge a b ↔ t.DependsOn path a b := by
  rw [Edge, h.dependencies_eq ha]
  rfl

theorem dependsOn_of_edge (h : Complete t path root c) {a b : String} (hab : c.Edge a b) :
    t.DependsOn path a b :=
  (h.edge_iff (mem_order_of_edge hab)).1 hab

/-- What is reached in the table is reached in the closure. -/
theorem reflTransGen_edge_iff (h : Complete t path root c) {a : String} :
    Relation.ReflTransGen c.Edge root a ↔ t.Reaches path root a := by
  constructor
  · exact Relation.ReflTransGen.mono (fun _ _ hab => h.dependsOn_of_edge hab) root a
  · intro ha
    induction ha with
    | refl => exact .refl
    | tail hb hbc ih => exact ih.tail ((h.edge_iff (h.breadthFirst.mem_iff.2 hb)).2 hbc)

/-- Something that is reached leads back to itself in the table exactly if it does in the closure.
-/
theorem transGen_edge_iff (h : Complete t path root c) {a b : String} (ha : a ∈ c.order) :
    Relation.TransGen c.Edge a b ↔ Relation.TransGen (t.DependsOn path) a b := by
  constructor
  · exact Relation.TransGen.mono (fun _ _ hab => h.dependsOn_of_edge hab) a b
  · intro hab
    -- Only from what was gathered do both have the same edges, so this is carried along.
    have hboth : Relation.TransGen c.Edge a b ∧ b ∈ c.order := by
      induction hab with
      | single hab =>
        exact ⟨.single ((h.edge_iff ha).2 hab), h.breadthFirst.mem_of_dependsOn ha hab⟩
      | tail _ hbc ih =>
        exact ⟨ih.1.tail ((h.edge_iff ih.2).2 hbc), h.breadthFirst.mem_of_dependsOn ih.2 hbc⟩
    exact hboth.1

/-- **The search for cycles is exact** for the table. -/
theorem checkAcyclic_eq_ok_iff (h : Complete t path root c) :
    c.checkAcyclic root = .ok () ↔
      ∀ a, t.Reaches path root a → ¬Relation.TransGen (t.DependsOn path) a a := by
  rw [Closure.checkAcyclic_eq_ok_iff]
  refine forall_congr' fun a => ?_
  rw [h.reflTransGen_edge_iff]
  exact imp_congr_right fun ha => not_congr (h.transGen_edge_iff (h.breadthFirst.mem_iff.2 ha))

/-- What the search reports is a cycle of the table. -/
theorem isCycle_of_checkAcyclic (h : Complete t path root c) {e : FeatureError}
    (he : c.checkAcyclic root = .error e) :
    ∃ chain, e = .cycle chain ∧ IsCycle (t.DependsOn path) chain ∧
      ∀ a ∈ chain, t.Reaches path root a := by
  obtain ⟨chain, rfl, hcycle, hreach⟩ := Closure.isCycle_of_checkAcyclic he
  refine ⟨chain, rfl, ?_, fun a ha => h.reflTransGen_edge_iff.1 (hreach a ha)⟩
  exact { hcycle with linked := hcycle.linked.imp fun _ _ hab => h.dependsOn_of_edge hab }

end Closure.Complete

/-! ### The other errors of a query -/

/-- An id can only fail to be split for want of a known prefix. -/
theorem FeatureKind.splitId_error {id : String} {e : FeatureError} (h : splitId id = .error e) :
    e = .unknownPrefix id := by
  unfold splitId at h
  split at h
  · exact (Except.error.inj h).symm
  · split at h
    · exact (Except.error.inj h).symm
    · cases h

theorem Bounds.absorb_error {b : Bounds} {id : String} {d : Definition} {e : FeatureError}
    (h : b.absorb id d = .error e) : e = .unknownPrefix id := by
  rcases bind_eq_error_iff.1 h with h | ⟨kindName, -, h⟩
  · exact FeatureKind.splitId_error h
  · cases h

namespace Resolver

theorem gather_error {r : Resolver} {c : Closure} {ids : List String} {b : Bounds}
    {e : FeatureError} (h : r.gather c ids b = .error e) : ∃ id, e = .unknownPrefix id := by
  induction ids generalizing b with
  | nil => cases h
  | cons id rest ih =>
    unfold gather at h
    split at h
    · cases h
    · rename_i d _
      split_ifs at h
      rcases bind_eq_error_iff.1 h with h | ⟨b', -, h⟩
      · exact ⟨id, Bounds.absorb_error h⟩
      · exact ih h

/-- What is gathered of a closure depends on the options only. -/
theorem gather_eq_of_options_eq {r r' : Resolver} (h : r.options = r'.options) (c : Closure)
    (ids : List String) (b : Bounds) : r.gather c ids b = r'.gather c ids b := by
  induction ids generalizing b with
  | nil => rfl
  | cons id ids ih =>
    rw [gather, gather]
    simp only [ih, h]

/-- A query of a path that has a root, in its stages. -/
theorem query_eq_of_root {r : Resolver} {path root : String} (hroot : r.root? path = some root) :
    r.query path = do
      let c ← Closure.collect r.table path root
      c.checkAcyclic root
      let bounds ← r.gather c c.order {}
      return (bounds.bind Bounds.availability?).map (r.dated path) := by
  unfold query
  rw [hroot]

/-- A path without a root is not available. -/
theorem query_eq_of_root_eq_none {r : Resolver} {path : String} (hroot : r.root? path = none) :
    r.query path = .ok none := by
  unfold query
  rw [hroot]

/-- A query of a path that has a root, in the stages that come after the closure was gathered. -/
theorem query_eq_of_collect {r : Resolver} {path root : String} {c : Closure}
    (hroot : r.root? path = some root) (hc : Closure.collect r.table path root = .ok c) :
    r.query path = do
      c.checkAcyclic root
      let bounds ← r.gather c c.order {}
      return (bounds.bind Bounds.availability?).map (r.dated path) := by
  unfold query
  rw [hroot]
  simp only [hc]
  rfl

/-- After the closure was gathered, a query fails with a cycle only where the search for cycles
does. -/
theorem query_eq_cycle_iff {r : Resolver} {path root : String} {c : Closure} {chain : List String}
    (hroot : r.root? path = some root) (hc : Closure.collect r.table path root = .ok c) :
    r.query path = .error (.cycle chain) ↔ c.checkAcyclic root = .error (.cycle chain) := by
  rw [query_eq_of_collect hroot hc]
  cases hcheck : c.checkAcyclic root with
  | error e => simp only [bind, Except.bind, Except.error.injEq]
  | ok _ =>
    cases hg : r.gather c c.order {} with
    | error e =>
      -- Without a cycle only a prefix can be at fault.
      obtain ⟨id, rfl⟩ := gather_error hg
      constructor <;> intro h <;> cases h
    | ok bounds => constructor <;> intro h <;> cases h

/-! ### Main result -/

/-- **Cycle detection is exact.** If every id that is reached from the root of a path can be
resolved, and no more are reached than a closure may hold, then the query of the path fails with a
cycle if and only if something that is reached leads back to itself. What is reported is such a
cycle. -/
theorem query_cycle_iff {r : Resolver} {path root : String} (hroot : r.root? path = some root)
    (hmerge : ∀ id, r.table.Reaches path root id → ∀ id' n,
      r.table.resolve? path id ≠ .error (.ambiguous id' path n))
    (hsize : {id | r.table.Reaches path root id}.encard ≤ maxClosure) :
    ((∃ chain, r.query path = .error (.cycle chain)) ↔
      ∃ id, r.table.Reaches path root id ∧
        Relation.TransGen (r.table.DependsOn path) id id) ∧
    ∀ chain, r.query path = .error (.cycle chain) →
      IsCycle (r.table.DependsOn path) chain ∧ ∀ id ∈ chain, r.table.Reaches path root id := by
  obtain ⟨c, hc, hcomplete⟩ := Closure.exists_collect_eq_ok hmerge hsize
  have hquery : ∀ chain, r.query path = .error (.cycle chain) →
      IsCycle (r.table.DependsOn path) chain ∧ ∀ id ∈ chain, r.table.Reaches path root id := by
    intro chain h
    rw [query_eq_cycle_iff hroot hc] at h
    obtain ⟨chain', he, hcycle, hreach⟩ := hcomplete.isCycle_of_checkAcyclic h
    cases he
    exact ⟨hcycle, hreach⟩
  refine ⟨⟨?_, ?_⟩, hquery⟩
  · rintro ⟨chain, h⟩
    obtain ⟨hcycle, hreach⟩ := hquery chain h
    obtain ⟨id, hid, hback⟩ := hcycle.exists_transGen
    exact ⟨id, hreach id hid, hback⟩
  · rintro ⟨id, hid, hback⟩
    cases hcheck : c.checkAcyclic root with
    | ok _ => exact absurd hback (hcomplete.checkAcyclic_eq_ok_iff.1 hcheck id hid)
    | error e =>
      obtain ⟨chain, rfl, -⟩ := hcomplete.isCycle_of_checkAcyclic hcheck
      exact ⟨chain, (query_eq_cycle_iff hroot hc).2 hcheck⟩

/-- A feature with two ways to one that is reached again from below it. One id on the cycle is
internal, and one that is reached is not defined. -/
def crossingFeatures : Resolver where
  table := ⟨[("api:menus", [{ dependencies := some ["api:tabs", "api:windows"] }]),
    ("api:tabs", [{ dependencies := some ["api:frames", "permission:tabs"] }]),
    ("api:windows", [{ dependencies := some ["api:frames"], internal := some true }]),
    ("api:frames", [{ dependencies := some ["api:windows"] }])]⟩

/-- The cycle is found behind the crossing, although a gate closes on it. -/
theorem query_crossingFeatures :
    crossingFeatures.root? "menus.create" = some "api:menus" ∧
    (∃ id, crossingFeatures.table.Reaches "menus.create" "api:menus" id ∧
      Relation.TransGen (crossingFeatures.table.DependsOn "menus.create") id id) ∧
    IsCycle (crossingFeatures.table.DependsOn "menus.create")
      ["api:frames", "api:windows", "api:frames"] := by
  have hroot : crossingFeatures.root? "menus.create" = some "api:menus" := by rfl
  obtain ⟨c, hc, hlen⟩ : ∃ c, Closure.collect crossingFeatures.table "menus.create" "api:menus" =
      .ok c ∧ c.order.length ≤ maxClosure := ⟨_, rfl, by decide⟩
  have hcomplete := Closure.complete_of_collect_eq_ok hc
  have hexact := query_cycle_iff hroot
    (fun id hid id' n he => by
      rw [hcomplete.resolve_eq (hcomplete.breadthFirst.mem_iff.2 hid)] at he
      cases he)
    (by rw [hcomplete.encard_reaches]; exact Nat.cast_le.2 hlen)
  have hquery : crossingFeatures.query "menus.create" =
      .error (.cycle ["api:frames", "api:windows", "api:frames"]) := by rfl
  exact ⟨hroot, hexact.1.1 ⟨_, hquery⟩, (hexact.2 _ hquery).1⟩

end Resolver

end ApiTypings
