import ApiTypings.Feature.Dependencies
import ApiTypings.Proofs.Except
import ApiTypings.Proofs.Repetitions
import Mathlib.Data.List.Chain
import Mathlib.Data.List.TakeWhile
import Mathlib.Data.Set.Card
import Mathlib.Logic.Relation
/-!
# What is reached from a feature

`FeatureTable.DependsOn` is one step along resolved dependencies, `FeatureTable.Reaches` any number
of steps. Gathering a closure is exact for this relation: whatever `Closure.collect` answers, one of
three things is the case (`collect_cases`).

* The closure holds exactly what the root reaches, each id once and with its resolved definition, in
  breadth-first order (`Closure.Complete`).
* Some id that is reached cannot be resolved, and its error is the answer.
* More than `maxClosure` distinct ids are reached.

The worklist is tied to the relation by one equation (`Closure.Gathering.taken`): what was ever
queued is the root followed by the dependencies of everything gathered, and what was gathered is the
part that was taken from the queue, without repetitions.
-/

namespace ApiTypings

/-! ### Why an id cannot be resolved -/

/-- Several are not one. -/
theorem ne_singleton_of_two_le {α : Type} {xs : List α} (h : 2 ≤ xs.length) (x : α) :
    xs ≠ [x] := by
  rintro rfl
  rw [List.length_singleton] at h
  omega

/-- Variants can only fail to be merged by being ambiguous, if there are any. -/
theorem Definition.merge_error {id path : String} {variants : List Definition} {e : FeatureError}
    (hne : variants ≠ []) (h : merge id path variants = .error e) :
    ∃ n, e = .ambiguous id path n := by
  unfold merge at h
  split at h
  · exact absurd rfl hne
  · cases h
  · split at h
    · cases h
    · split at h
      · cases h
      · rename_i remaining _
        exact ⟨remaining, (Except.error.inj h).symm⟩

namespace FeatureTable

variable {t : FeatureTable} {path : String} {e : FeatureError}

/-- Of several variants a descendant inherits from the one that is marked, and from the merged
variants if none is. -/
theorem parentVariant_of_ne_singleton {id : String} {variants : List Definition}
    (hone : ∀ v, variants ≠ [v]) :
    parentVariant id path variants =
      match variants.find? (·.isDefaultParent) with
      | some marked => .ok marked
      | none => Definition.merge id path variants := by
  unfold parentVariant
  split
  · next only => exact absurd rfl (hone only)
  · rfl

theorem parentVariant_error {id : String} {variants : List Definition} (hne : variants ≠ [])
    (h : parentVariant id path variants = .error e) : ∃ n, e = .ambiguous id path n := by
  unfold parentVariant at h
  split at h
  · cases h
  · split at h
    · cases h
    · exact Definition.merge_error hne h

theorem inherited?_error {ids : List String} (h : t.inherited? path ids = .error e) :
    ∃ id n, e = .ambiguous id path n := by
  induction ids with
  | nil => cases h
  | cons id rest ih =>
    unfold inherited? at h
    split at h
    · exact ih h
    · rename_i variants hne
      rcases bind_eq_error_iff.1 h with h | ⟨selected, -, h⟩
      · exact ⟨id, parentVariant_error hne h⟩
      · split at h
        · cases h
        · rcases bind_eq_error_iff.1 h with h | ⟨parent, -, h⟩
          · exact ih h
          · split at h <;> cases h

/-- **An id can only fail to be resolved by an ambiguity**, its own or one of its ancestors'. -/
theorem resolve?_error {id : String} (h : t.resolve? path id = .error e) :
    ∃ id' n, e = .ambiguous id' path n := by
  unfold resolve? at h
  split at h
  · cases h
  · rename_i hne
    rcases bind_eq_error_iff.1 h with h | ⟨merged, -, h⟩
    · exact ⟨id, Definition.merge_error hne h⟩
    · split at h
      · cases h
      · rcases bind_eq_error_iff.1 h with h | ⟨parent, -, h⟩
        · exact inherited?_error h
        · split at h <;> cases h

/-- What has a definition has variants, so the table knows it. -/
theorem contains_of_resolve? {id : String} {d : Definition}
    (h : t.resolve? path id = .ok (some d)) : t.contains id = true := by
  cases hlookup : t.entries.lookup id with
  | some ds =>
    rw [contains, hlookup]
    rfl
  | none =>
    have hvariants : t.variants id = [] := by
      rw [variants, hlookup]
      rfl
    rw [resolve?, hvariants] at h
    cases h

/-! ### The relation -/

/-- The definition that an id is resolved to, if there is one. -/
def definition? (t : FeatureTable) (path id : String) : Option Definition :=
  match t.resolve? path id with
  | .ok d => d
  | .error _ => none

/-- The dependencies that an id is resolved with. An id without definition has none. -/
def dependenciesOf (t : FeatureTable) (path id : String) : List String :=
  (t.definition? path id).elim [] Definition.dependencyIds

/-- `b` is a resolved dependency of `a`. -/
def DependsOn (t : FeatureTable) (path a b : String) : Prop :=
  b ∈ t.dependenciesOf path a

/-- `b` is reached from `a` along resolved dependencies, in any number of steps. -/
def Reaches (t : FeatureTable) (path : String) : String → String → Prop :=
  Relation.ReflTransGen (t.DependsOn path)

/-- `order` lists what is reached from `root` **breadth first**: the root, then the dependencies of
every listed id in turn, where an id that is listed already is passed over. -/
structure BreadthFirst (t : FeatureTable) (path root : String) (order : List String) : Prop where
  reached : ∀ id ∈ order, t.Reaches path root id
  order_eq : order = (root :: order.flatMap (t.dependenciesOf path)).eraseDups

variable {t : FeatureTable} {path root : String}

theorem dependenciesOf_eq {id : String} {d : Option Definition} (h : t.resolve? path id = .ok d) :
    t.dependenciesOf path id = d.elim [] Definition.dependencyIds := by
  rw [dependenciesOf, definition?, h]

namespace BreadthFirst

variable {order : List String}

theorem nodup (h : t.BreadthFirst path root order) : order.Nodup := by
  rw [h.order_eq]
  exact nodup_eraseDups _

theorem root_mem (h : t.BreadthFirst path root order) : root ∈ order := by
  rw [h.order_eq]
  simp

/-- With an id its dependencies are listed. -/
theorem mem_of_dependsOn (h : t.BreadthFirst path root order) {a b : String} (ha : a ∈ order)
    (hab : t.DependsOn path a b) : b ∈ order := by
  rw [h.order_eq, List.mem_eraseDups]
  exact List.mem_cons_of_mem _ (List.mem_flatMap.2 ⟨a, ha, hab⟩)

/-- Exactly what is reached is listed. -/
theorem mem_iff (h : t.BreadthFirst path root order) {id : String} :
    id ∈ order ↔ t.Reaches path root id := by
  refine ⟨h.reached id, fun hr => ?_⟩
  induction hr with
  | refl => exact h.root_mem
  | tail _ hab ih => exact h.mem_of_dependsOn ih hab

/-- The ids that the first ids of the order lead to come first in the order as well. -/
theorem prefix_of_prefix (h : t.BreadthFirst path root order) {first : List String}
    (hfirst : first <+: order) :
    (root :: first.flatMap (t.dependenciesOf path)).eraseDups <+: order := by
  obtain ⟨rest, rfl⟩ := hfirst
  conv_rhs => rw [h.order_eq]
  rw [List.flatMap_append, ← List.cons_append, List.eraseDups_append]
  exact List.prefix_append _ _

/-- First ids of the order that hold all they lead to are the whole order. -/
theorem subset_of_forall_mem (h : t.BreadthFirst path root order) {first : List String}
    (hclosed : ∀ id ∈ root :: first.flatMap (t.dependenciesOf path), id ∈ first) :
    order ⊆ first := by
  intro id hid
  have hreach := h.reached id hid
  clear hid
  induction hreach with
  | refl => exact hclosed root (List.mem_cons_self ..)
  | tail _ hab ih => exact hclosed _ (List.mem_cons_of_mem _ (List.mem_flatMap.2 ⟨_, ih, hab⟩))

/-- **There is one breadth-first order.** -/
theorem unique {order' : List String} (h : t.BreadthFirst path root order)
    (h' : t.BreadthFirst path root order') : order = order' := by
  have hlen : order.length = order'.length := by
    refine ((List.perm_ext_iff_of_nodup h.nodup h'.nodup).2 fun id => ?_).length_eq
    rw [h.mem_iff, h'.mem_iff]
  have htake : ∀ k, order.take k = order'.take k := by
    intro k
    induction k with
    | zero => rfl
    | succ k ih =>
      set next := (root :: (order.take k).flatMap (t.dependenciesOf path)).eraseDups with hnext
      have hp : next <+: order := h.prefix_of_prefix (List.take_prefix k order)
      have hp' : next <+: order' := by
        rw [hnext, ih]
        exact h'.prefix_of_prefix (List.take_prefix k order')
      by_cases hk : k < next.length
      · -- One more id is known to both.
        have hmin : min (k + 1) next.length = k + 1 := by omega
        rw [List.prefix_iff_eq_take] at hp hp'
        have h₁ : order.take (k + 1) = next.take (k + 1) := by
          rw [hp, List.take_take, hmin]
        have h₂ : order'.take (k + 1) = next.take (k + 1) := by
          rw [hp', List.take_take, hmin]
        rw [h₁, h₂]
      · -- Nothing leads further, so both orders have ended.
        have hclosed : order ⊆ order.take k := by
          refine h.subset_of_forall_mem fun id hid => ?_
          have hle : next.length ≤ (order.take k).length := by
            have := hp.length_le
            rw [List.length_take]
            omega
          exact (List.prefix_of_prefix_length_le hp (List.take_prefix k order) hle).subset
            (List.mem_eraseDups.2 hid)
        have hend : order.length ≤ k :=
          (List.subperm_of_subset h.nodup hclosed).length_le.trans (List.length_take_le _ _)
        rw [List.take_of_length_le hend, List.take_of_length_le (by omega)] at ih
        rw [List.take_of_length_le (by omega), List.take_of_length_le (by omega), ih]
  have hall := htake order.length
  rwa [List.take_length, hlen, List.take_length] at hall

end BreadthFirst

end FeatureTable

namespace Closure

open FeatureTable

/-! ### Looking up what was gathered -/

theorem contains_iff {c : Closure} {id : String} : c.contains id = true ↔ id ∈ c.order := by
  rw [contains, order, List.lookup_isSome_iff]
  constructor
  · rintro ⟨p, hp, he⟩
    exact List.mem_map.2 ⟨p, hp, (beq_iff_eq.1 he).symm⟩
  · intro h
    obtain ⟨p, hp, rfl⟩ := List.mem_map.1 h
    exact ⟨p, hp, beq_self_eq_true _⟩

/-- What the walk stops at in its queue was not gathered yet. -/
theorem not_mem_order_of_dropWhile {c : Closure} {queue rest : List String} {id : String}
    (h : queue.dropWhile c.contains = id :: rest) : id ∉ c.order := by
  have hne : queue.dropWhile c.contains ≠ [] := by simp [h]
  have hhead := List.head_dropWhile_not c.contains hne
  simp only [h, List.head_cons] at hhead
  rw [← contains_iff, hhead]
  exact Bool.false_ne_true

theorem order_push (c : Closure) (id : String) (d : Option Definition) :
    (c.push id d).order = c.order ++ [id] := by
  simp [push, order]

theorem length_order (c : Closure) : c.order.length = c.nodes.length := by
  simp [order]

/-! ### The invariant of the worklist -/

/-- What holds of a closure that is being gathered from `root` while `queue` is still to be looked
at. -/
structure Gathering (t : FeatureTable) (path root : String) (queue : List String) (c : Closure) :
    Prop where
  /-- Everything gathered has its resolved definition. -/
  resolved : ∀ id d, (id, d) ∈ c.nodes → t.resolve? path id = .ok d
  reached : ∀ id ∈ c.order, t.Reaches path root id
  /-- The root and all dependencies were queued; what was taken from the queue was gathered once. -/
  taken : ∃ taken : List String,
    taken ++ queue = root :: c.order.flatMap (t.dependenciesOf path) ∧ taken.eraseDups = c.order

/-- A closure that holds what is reached from `root`, and nothing else. -/
structure Complete (t : FeatureTable) (path root : String) (c : Closure) : Prop where
  resolved : ∀ id d, (id, d) ∈ c.nodes → t.resolve? path id = .ok d
  breadthFirst : t.BreadthFirst path root c.order

variable {t : FeatureTable} {path root : String}

theorem Gathering.start (t : FeatureTable) (path root : String) :
    Gathering t path root [root] {} where
  resolved := by simp
  reached := by simp [order]
  taken := ⟨[], by simp [order]⟩

namespace Gathering

variable {queue : List String} {c : Closure}

theorem nodup (h : Gathering t path root queue c) : c.order.Nodup := by
  obtain ⟨taken, _, he⟩ := h.taken
  rw [← he]
  exact nodup_eraseDups _

/-- Everything in the queue is reached. -/
theorem reached_of_mem_queue (h : Gathering t path root queue c) {id : String} (hid : id ∈ queue) :
    t.Reaches path root id := by
  obtain ⟨taken, hq, _⟩ := h.taken
  have hmem : id ∈ root :: c.order.flatMap (t.dependenciesOf path) := by
    rw [← hq]
    exact List.mem_append_right _ hid
  rcases List.mem_cons.1 hmem with rfl | hmem
  · exact .refl
  · obtain ⟨a, ha, hd⟩ := List.mem_flatMap.1 hmem
    exact (h.reached a ha).tail hd

/-- Ids that were gathered before may be dropped from the front of the queue. -/
theorem skip {passed rest : List String} (h : Gathering t path root (passed ++ rest) c)
    (hp : ∀ id ∈ passed, id ∈ c.order) : Gathering t path root rest c where
  resolved := h.resolved
  reached := h.reached
  taken := by
    obtain ⟨taken, hq, he⟩ := h.taken
    refine ⟨taken ++ passed, by rw [List.append_assoc, hq], ?_⟩
    rw [eraseDups_append_of_forall_mem, he]
    intro id hid
    rw [← List.mem_eraseDups, he]
    exact hp id hid

/-- What was gathered before may be dropped from the front of the queue. -/
theorem dropWhile (h : Gathering t path root queue c) :
    Gathering t path root (queue.dropWhile c.contains) c := by
  rw [← List.takeWhile_append_dropWhile (p := c.contains) (l := queue)] at h
  exact h.skip fun _ hid => contains_iff.1 (List.mem_takeWhile_imp hid)

/-- A new id at the front of the queue is gathered, and its dependencies are queued. -/
theorem push {id : String} {rest : List String} {d : Option Definition}
    (h : Gathering t path root (id :: rest) c) (hid : id ∉ c.order)
    (hd : t.resolve? path id = .ok d) :
    Gathering t path root (rest ++ d.elim [] Definition.dependencyIds) (c.push id d) where
  resolved := by
    intro id' d' hmem
    rcases List.mem_append.1 hmem with hmem | hmem
    · exact h.resolved id' d' hmem
    · rw [List.mem_singleton, Prod.mk.injEq] at hmem
      obtain ⟨rfl, rfl⟩ := hmem
      exact hd
  reached := by
    intro id' hid'
    rw [order_push, List.mem_append, List.mem_singleton] at hid'
    rcases hid' with hid' | rfl
    · exact h.reached id' hid'
    · exact h.reached_of_mem_queue (List.mem_cons_self ..)
  taken := by
    obtain ⟨taken, hq, he⟩ := h.taken
    refine ⟨taken ++ [id], ?_, ?_⟩
    · rw [order_push, List.flatMap_append, List.flatMap_singleton, dependenciesOf_eq hd,
        ← List.cons_append, ← hq]
      simp
    · have hnew : id ∉ taken := by rwa [← List.mem_eraseDups, he]
      rw [order_push, eraseDups_append_singleton, if_neg hnew, he]

/-- With an empty queue everything is gathered. -/
theorem complete (h : Gathering t path root [] c) : Complete t path root c where
  resolved := h.resolved
  breadthFirst := by
    obtain ⟨taken, hq, he⟩ := h.taken
    rw [List.append_nil] at hq
    exact ⟨h.reached, by rw [← hq, he]⟩

end Gathering

/-! ### The three outcomes -/

/-- Going on with a queue ends with a complete closure, with the error of an id that is reached, or
with one id more than there was room for. -/
theorem extend_cases (room : Nat) {queue : List String} {c : Closure}
    (h : Gathering t path root queue c) :
    (∃ c', extend t path room queue c = .ok c' ∧ Complete t path root c') ∨
    (∃ id e, t.Reaches path root id ∧ t.resolve? path id = .error e ∧
      extend t path room queue c = .error e) ∨
    (∃ ids, extend t path room queue c = .error (.cycle ids) ∧ ids.Nodup ∧
      (∀ id ∈ ids, t.Reaches path root id) ∧ ids.length = c.nodes.length + room + 1) := by
  -- On the room. With or without any left, an empty queue is the end; the invariant says the rest.
  induction room generalizing queue c with
  | zero =>
    cases hq : queue.dropWhile c.contains with
    | nil => exact .inl ⟨c, by rw [extend, hq], (hq ▸ h.dropWhile).complete⟩
    | cons id rest =>
      have hnew := not_mem_order_of_dropWhile hq
      have hreach : t.Reaches path root id :=
        (hq ▸ h.dropWhile).reached_of_mem_queue (List.mem_cons_self ..)
      refine .inr (.inr ⟨c.order ++ [id], by rw [extend, hq], ?_, ?_, by simp [length_order]⟩)
      · simpa using List.Nodup.concat hnew h.nodup
      · intro id' hid'
        rcases List.mem_append.1 hid' with hid' | hid'
        · exact h.reached id' hid'
        · rwa [List.mem_singleton.1 hid']
  | succ room ih =>
    cases hq : queue.dropWhile c.contains with
    | nil => exact .inl ⟨c, by rw [extend, hq], (hq ▸ h.dropWhile).complete⟩
    | cons id rest =>
      have h' : Gathering t path root (id :: rest) c := hq ▸ h.dropWhile
      cases hd : t.resolve? path id with
      | error e =>
        refine .inr (.inl ⟨id, e, h'.reached_of_mem_queue (List.mem_cons_self ..), hd, ?_⟩)
        rw [extend, hq]
        simp only [hd]
        rfl
      | ok d =>
        -- One id was gathered for one place of the room, so the sum stays the same.
        have hstep : extend t path (room + 1) queue c =
            extend t path room (rest ++ d.elim [] Definition.dependencyIds) (c.push id d) := by
          rw [extend, hq]
          simp only [hd]
          rfl
        have hlen : (c.push id d).nodes.length + room + 1 = c.nodes.length + (room + 1) + 1 := by
          simp only [Closure.push, List.length_append, List.length_singleton]
          omega
        rw [hstep, ← hlen]
        exact ih (h'.push (not_mem_order_of_dropWhile hq) hd)

/-- **Gathering is exact.** What is reached from the root is gathered completely, unless an id that
is reached cannot be resolved, or more distinct ids are reached than a closure may hold. -/
theorem collect_cases (t : FeatureTable) (path root : String) :
    (∃ c, collect t path root = .ok c ∧ Complete t path root c) ∨
    (∃ id e, t.Reaches path root id ∧ t.resolve? path id = .error e ∧
      collect t path root = .error e) ∨
    (∃ ids, collect t path root = .error (.cycle ids) ∧ ids.Nodup ∧
      (∀ id ∈ ids, t.Reaches path root id) ∧ ids.length = maxClosure + 1) := by
  have h := extend_cases maxClosure (Gathering.start t path root)
  simpa [collect] using h

/-- A closure is gathered completely if everything that is reached can be resolved and is not too
much. -/
theorem exists_collect_eq_ok
    (hmerge : ∀ id, t.Reaches path root id → ∀ id' n,
      t.resolve? path id ≠ .error (.ambiguous id' path n))
    (hsize : {id | t.Reaches path root id}.encard ≤ maxClosure) :
    ∃ c, collect t path root = .ok c ∧ Complete t path root c := by
  rcases collect_cases t path root with h | ⟨id, e, hid, he, -⟩ | ⟨ids, -, hnodup, hreach, hlen⟩
  · exact h
  · obtain ⟨id', n, rfl⟩ := resolve?_error he
    exact absurd he (hmerge id hid id' n)
  · -- More distinct ids would be reached than there may be.
    have hsub : (ids.toFinset : Set String) ⊆ {id | t.Reaches path root id} := by
      intro id hid
      exact hreach id (by simpa using hid)
    have hcard := (Set.encard_le_encard hsub).trans hsize
    rw [Set.encard_coe_eq_coe_finsetCard, List.toFinset_card_of_nodup hnodup, hlen] at hcard
    exact absurd (Nat.cast_le.1 hcard) (by simp)

/-! ### Reading a complete closure -/

/-- What is gathered without an error is complete. -/
theorem complete_of_collect_eq_ok {c : Closure} (h : collect t path root = .ok c) :
    Complete t path root c := by
  rcases collect_cases t path root with ⟨c', hc', hcomplete⟩ | ⟨_, _, -, -, he⟩ | ⟨_, he, -⟩
  · rw [h] at hc'
    cases hc'
    exact hcomplete
  · rw [h] at he
    cases he
  · rw [h] at he
    cases he

namespace Complete

variable {c : Closure}

theorem setOf_reaches (h : Complete t path root c) :
    {id | t.Reaches path root id} = (c.order.toFinset : Set String) := by
  ext id
  simp [h.breadthFirst.mem_iff]

/-- As many distinct ids are reached as the closure holds. -/
theorem encard_reaches (h : Complete t path root c) :
    {id | t.Reaches path root id}.encard = c.order.length := by
  rw [h.setOf_reaches, Set.encard_coe_eq_coe_finsetCard,
    List.toFinset_card_of_nodup h.breadthFirst.nodup]

/-- The closure gives every id that is reached its resolved definition. -/
theorem resolve_eq (h : Complete t path root c) {id : String} (hid : id ∈ c.order) :
    t.resolve? path id = .ok (c.definition? id) := by
  obtain ⟨⟨key, d⟩, hp, rfl⟩ := List.mem_map.1 hid
  -- The lookup may find another entry of the id, but every entry is resolved.
  have hfound : (c.nodes.lookup key).isSome = true := contains_iff.2 hid
  obtain ⟨d', hd'⟩ := Option.isSome_iff_exists.1 hfound
  obtain ⟨l₁, l₂, hsplit, _⟩ := List.lookup_eq_some_iff.1 hd'
  have hmem : (key, d') ∈ c.nodes := by simp [hsplit]
  rw [Closure.definition?, hd', h.resolved key d' hmem]
  rfl

theorem definition?_eq (h : Complete t path root c) {id : String} (hid : id ∈ c.order) :
    c.definition? id = t.definition? path id := by
  rw [FeatureTable.definition?, h.resolve_eq hid]

theorem dependencies_eq (h : Complete t path root c) {id : String} (hid : id ∈ c.order) :
    c.dependencies id = t.dependenciesOf path id := by
  rw [dependenciesOf, ← h.definition?_eq hid, dependencies]
  cases c.definition? id <;> rfl

end Complete

end Closure

end ApiTypings
