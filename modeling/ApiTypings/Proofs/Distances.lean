import ApiTypings.Proofs.Tightening
import Mathlib.Order.Lattice.Nat
/-!
# In which order a closure is gathered

A closure is gathered from a queue, and what is queued may be queued again. Main statement
(`Closure.collect_exact`): the loop ends for every table, with cycles or without; it gathers what can
be reached from the root, each id once and nearer ids before farther ones; and it fails if that is
more than a closure may hold.

* `Worklist.turn` is one turn of the loop. Every turn takes an id from the queue, and only a turn that
  gathers an id, for which there must be room, adds to the queue (`Worklist.exists_ends`).
* `FeatureTable.distance` is the number of steps to an id along resolved dependencies. In a
  breadth-first order it never becomes smaller (`BreadthFirst.pairwise_distance`): the id that leads
  to a nearer id comes before whatever leads to a farther one.
-/

namespace ApiTypings

namespace FeatureTable

variable {t : FeatureTable} {path root : String}

/-! ### Distances -/

/-- `id` is reached from `root` in exactly `n` steps, on some way. -/
inductive ReachesIn (t : FeatureTable) (path root : String) : Nat → String → Prop
  | root : ReachesIn t path root 0 root
  | step {n : Nat} {a b : String} : ReachesIn t path root n a → t.DependsOn path a b →
    ReachesIn t path root (n + 1) b

/-- How many steps an id is away from `root` on the shortest way. -/
noncomputable def distance (t : FeatureTable) (path root id : String) : Nat :=
  sInf {n | t.ReachesIn path root n id}

theorem ReachesIn.reaches {n : Nat} {id : String} (h : t.ReachesIn path root n id) :
    t.Reaches path root id := by
  induction h with
  | root => exact .refl
  | step _ hab ih => exact ih.tail hab

theorem exists_reachesIn {id : String} (h : t.Reaches path root id) :
    ∃ n, t.ReachesIn path root n id := by
  induction h with
  | refl => exact ⟨0, .root⟩
  | tail _ hab ih =>
    obtain ⟨n, hn⟩ := ih
    exact ⟨n + 1, hn.step hab⟩

/-- There is a way of that many steps. -/
theorem reachesIn_distance {id : String} (h : t.Reaches path root id) :
    t.ReachesIn path root (t.distance path root id) id :=
  Nat.sInf_mem (exists_reachesIn h)

theorem ReachesIn.distance_le {n : Nat} {id : String} (h : t.ReachesIn path root n id) :
    t.distance path root id ≤ n :=
  Nat.sInf_le h

namespace BreadthFirst

variable {order first : List String}

theorem head?_eq (h : t.BreadthFirst path root order) : order.head? = some root := by
  rw [h.order_eq, List.eraseDups_cons]
  rfl

/-- Nothing comes before the root. -/
theorem eq_nil_of_prefix (h : t.BreadthFirst path root order) (hfirst : first ++ [root] <+: order) :
    first = [] := by
  cases first with
  | nil => rfl
  | cons a rest =>
    obtain ⟨tail, horder⟩ := List.head?_eq_some_iff.1 h.head?_eq
    have hnodup : (a :: rest ++ [root]).Nodup := hfirst.sublist.nodup h.nodup
    rw [horder, List.cons_append, List.cons_prefix_cons] at hfirst
    obtain ⟨rfl, -⟩ := hfirst
    simp at hnodup

/-- What comes before an id is led to from no later than the id itself: all dependencies of the
first ids come before any other dependency. -/
theorem mem_of_dependsOn_of_prefix (h : t.BreadthFirst path root order) {before : List String}
    {p b : String} (hp : before ++ [p] <+: order) (hpb : t.DependsOn path p b)
    (hb : first ++ [b] <+: order) :
    ∀ a ∈ first, a = root ∨ ∃ q ∈ before ++ [p], t.DependsOn path q a := by
  intro a ha
  have hnext := h.prefix_of_prefix hp
  set next := (root :: (before ++ [p]).flatMap (t.dependenciesOf path)).eraseDups with hdef
  have hmem : ∀ c, c ∈ next ↔ c = root ∨ ∃ q ∈ before ++ [p], t.DependsOn path q c := fun c => by
    rw [hdef, List.mem_eraseDups, List.mem_cons, List.mem_flatMap]
    rfl
  have hbnext : b ∈ next :=
    (hmem b).2 (.inr ⟨p, List.mem_append_right _ (List.mem_singleton_self p), hpb⟩)
  refine (hmem a).1 ?_
  rcases List.prefix_or_prefix_of_prefix hb hnext with hle | hle
  · exact hle.subset (List.mem_append_left _ ha)
  · rcases List.prefix_concat_iff.1 hle with heq | hle
    · rw [heq]
      exact List.mem_append_left _ ha
    · -- Otherwise `b` would be listed twice.
      have hnodup : (first ++ [b]).Nodup := hb.sublist.nodup h.nodup
      have hdisjoint := (List.nodup_append.1 hnodup).2.2 b (hle.subset hbnext) b
      exact absurd rfl (hdisjoint (List.mem_singleton_self b))

/-- **Nearer ids come first**: where an id can be reached in `n` steps, all ids before it can be
reached in no more. -/
theorem exists_reachesIn_of_prefix (h : t.BreadthFirst path root order) {n : Nat} {b : String}
    (hb : t.ReachesIn path root n b) (hfirst : first ++ [b] <+: order) :
    ∀ a ∈ first, ∃ m ≤ n, t.ReachesIn path root m a := by
  -- On the way to `b`: the ids before it are led to from the last id on the way or from one before
  -- that, for which the claim is known.
  induction hb generalizing first with
  | root =>
    rw [h.eq_nil_of_prefix hfirst]
    exact List.forall_mem_nil _
  | @step n p b hp hpb ih =>
    obtain ⟨before, after, horder⟩ := List.append_of_mem (h.mem_iff.2 hp.reaches)
    have hbefore : before ++ [p] <+: order := ⟨after, by rw [horder]; simp⟩
    intro a ha
    rcases h.mem_of_dependsOn_of_prefix hbefore hpb hfirst a ha with rfl | ⟨q, hq, hqa⟩
    · exact ⟨0, Nat.zero_le _, .root⟩
    · rcases List.mem_append.1 hq with hq | hq
      · obtain ⟨m, hm, hreach⟩ := ih hbefore q hq
        exact ⟨m + 1, Nat.succ_le_succ hm, hreach.step hqa⟩
      · rw [List.mem_singleton.1 hq] at hqa
        exact ⟨n + 1, Nat.le_refl _, hp.step hqa⟩

/-- **Distances never become smaller** in a breadth-first order. -/
theorem pairwise_distance (h : t.BreadthFirst path root order) :
    order.Pairwise fun a b => t.distance path root a ≤ t.distance path root b := by
  rw [List.pairwise_iff_getElem]
  intro i j hi hj hij
  have hfirst : order.take j ++ [order[j]] <+: order := by
    rw [List.take_append_getElem]
    exact List.take_prefix _ _
  have hreach := reachesIn_distance (h.reached _ (List.getElem_mem hj))
  have hmem : order[i] ∈ order.take j := List.mem_take_iff_getElem.2 ⟨i, by omega, rfl⟩
  obtain ⟨m, hm, ha⟩ := h.exists_reachesIn_of_prefix hreach hfirst _ hmem
  exact ha.distance_le.trans hm

end BreadthFirst

/-- An id that can be resolved has no definition exactly if the table has none for it. -/
theorem eq_none_iff_of_resolve? {id : String} {d : Option Definition}
    (h : t.resolve? path id = .ok d) : d = none ↔ t.variants id = [] := by
  unfold resolve? at h
  split at h
  · next hvariants =>
    cases h
    exact iff_of_true rfl hvariants
  · next hvariants =>
    refine iff_of_false ?_ hvariants
    rintro rfl
    obtain ⟨merged, -, h⟩ := bind_eq_ok_iff.1 h
    split at h
    · cases h
    · obtain ⟨parent, -, h⟩ := bind_eq_ok_iff.1 h
      split at h <;> cases h

end FeatureTable

open FeatureTable

/-! ### Turn by turn -/

namespace Closure

variable {t : FeatureTable} {path id : String} {rest : List String} {c : Closure} {room : Nat}

theorem extend_of_contains (h : c.contains id = true) :
    extend t path room (id :: rest) c = extend t path room rest c := by
  unfold extend
  rw [List.dropWhile_cons_of_pos h]

theorem extend_of_full (h : ¬c.contains id = true) :
    extend t path 0 (id :: rest) c = .error (.cycle (c.order ++ [id])) := by
  unfold extend
  rw [List.dropWhile_cons_of_neg h]

theorem extend_of_room (h : ¬c.contains id = true) :
    extend t path (room + 1) (id :: rest) c = t.resolve? path id >>= fun d =>
      extend t path room (rest ++ d.elim [] Definition.dependencyIds) (c.push id d) := by
  rw [extend, List.dropWhile_cons_of_neg h]

end Closure

/-- The loop between two turns: the ids that are queued, and what has been gathered. -/
structure Worklist where
  queue : List String
  gathered : Closure

namespace Worklist

/-- One turn. The first id of the queue is passed over if it has been gathered; if not, it is resolved
and its dependencies are queued. The loop ends when the queue is empty, at an id that cannot be
resolved, and at one that there is no room for. -/
def turn (t : FeatureTable) (path : String) (w : Worklist) :
    Worklist ⊕ Except FeatureError Closure :=
  match w.queue with
  | [] => .inr (.ok w.gathered)
  | id :: rest =>
    if w.gathered.contains id then .inl ⟨rest, w.gathered⟩
    else if maxClosure ≤ w.gathered.order.length then
      .inr (.error (.cycle (w.gathered.order ++ [id])))
    else
      match t.resolve? path id with
      | .error e => .inr (.error e)
      | .ok d => .inl ⟨rest ++ d.elim [] Definition.dependencyIds, w.gathered.push id d⟩

/-- The loop ends after so many turns, with this answer. -/
inductive Ends (t : FeatureTable) (path : String) :
    Nat → Worklist → Except FeatureError Closure → Prop
  | last {w : Worklist} {answer : Except FeatureError Closure} : w.turn t path = .inr answer →
    Ends t path 1 w answer
  | turn {n : Nat} {w w' : Worklist} {answer : Except FeatureError Closure} :
    w.turn t path = .inl w' → Ends t path n w' answer → Ends t path (n + 1) w answer

variable {t : FeatureTable} {path id : String} {rest : List String} {c : Closure}

theorem turn_of_contains (h : c.contains id = true) :
    turn t path ⟨id :: rest, c⟩ = .inl ⟨rest, c⟩ :=
  if_pos h

theorem turn_of_full (h : ¬c.contains id = true) (hfull : maxClosure ≤ c.nodes.length) :
    turn t path ⟨id :: rest, c⟩ = .inr (.error (.cycle (c.order ++ [id]))) := by
  rw [← Closure.length_order] at hfull
  exact (if_neg h).trans (if_pos hfull)

theorem turn_of_room (t : FeatureTable) (path : String) (rest : List String)
    (h : ¬c.contains id = true) (hroom : c.nodes.length < maxClosure) :
    turn t path ⟨id :: rest, c⟩ =
      match t.resolve? path id with
      | .error e => .inr (.error e)
      | .ok d => .inl ⟨rest ++ d.elim [] Definition.dependencyIds, c.push id d⟩ := by
  rw [← Closure.length_order] at hroom
  exact (if_neg h).trans (if_neg (Nat.not_le.2 hroom))

/-- Ids that have been gathered are passed over, so it is enough that the loop ends at any other. -/
theorem exists_ends_of_fresh {room : Nat}
    (hfresh : ∀ id rest, ¬c.contains id = true →
      ∃ turns, Ends t path turns ⟨id :: rest, c⟩ (Closure.extend t path room (id :: rest) c))
    (queue : List String) :
    ∃ turns, Ends t path turns ⟨queue, c⟩ (Closure.extend t path room queue c) := by
  induction queue with
  | nil =>
    refine ⟨1, .last ?_⟩
    rw [Closure.extend]
    rfl
  | cons id rest ih =>
    by_cases hmem : c.contains id = true
    · obtain ⟨turns, h⟩ := ih
      rw [Closure.extend_of_contains hmem]
      exact ⟨turns + 1, .turn (turn_of_contains hmem) h⟩
    · exact hfresh id rest hmem

/-- **The loop ends**, with the answer of `Closure.extend`. A turn either gathers an id, so that there
is less room, or leaves a shorter queue and as much room as before. -/
theorem exists_ends (room : Nat) {queue : List String} {c : Closure}
    (hroom : c.nodes.length + room = maxClosure) :
    ∃ turns, Ends t path turns ⟨queue, c⟩ (Closure.extend t path room queue c) := by
  induction room generalizing queue c with
  | zero =>
    refine exists_ends_of_fresh (fun id rest hmem => ?_) queue
    rw [Closure.extend_of_full hmem]
    exact ⟨1, .last (turn_of_full hmem hroom.ge)⟩
  | succ room ih =>
    refine exists_ends_of_fresh (fun id rest hmem => ?_) queue
    have hturn := turn_of_room t path rest hmem (by omega)
    rw [Closure.extend_of_room hmem]
    cases hd : t.resolve? path id with
    | error e =>
      rw [hd] at hturn
      exact ⟨1, .last hturn⟩
    | ok d =>
      rw [hd] at hturn
      have hlength : (c.push id d).nodes.length + room = maxClosure := by
        simp only [Closure.push, List.length_append, List.length_singleton]
        omega
      obtain ⟨turns, h⟩ := ih hlength
      exact ⟨turns + 1, .turn hturn h⟩

end Worklist

/-! ### Main result -/

namespace Closure

variable {t : FeatureTable} {path root : String}

/-- With more than a closure may hold to be reached, gathering fails with what it has gathered. -/
theorem exists_collect_eq_cycle
    (hmerge : ∀ id, t.Reaches path root id → ∀ id' n,
      t.resolve? path id ≠ .error (.ambiguous id' path n))
    (hsize : maxClosure < {id | t.Reaches path root id}.encard) :
    ∃ ids, collect t path root = .error (.cycle ids) ∧ ids.Nodup ∧ ids.length = maxClosure + 1 ∧
      ∀ id ∈ ids, t.Reaches path root id := by
  rcases collect_cases t path root with ⟨c, hc, hcomplete⟩ | ⟨id, e, hid, he, -⟩ |
    ⟨ids, hids, hnodup, hreach, hlength⟩
  · -- What has been gathered is no more than may be.
    have hle := length_of_extend_eq_ok hc
    rw [hcomplete.encard_reaches, length_order] at hsize
    have hlt : maxClosure < c.nodes.length := Nat.cast_lt.1 hsize
    simp only [List.length_nil] at hle
    omega
  · obtain ⟨id', n, rfl⟩ := resolve?_error he
    exact absurd he (hmerge id hid id' n)
  · exact ⟨ids, hids, hnodup, hlength, hreach⟩

/-- **Gathering is exact**, in whatever way the ids depend on each other. If none of the ids that can
be reached is ambiguous, the loop comes to an end, and its answer is the closure: where no more can be
reached than a closure may hold, every id that can be reached once, the root first and no id before a
nearer one, with the definition that it is resolved to, which is none if the table has none. Where
more can be reached, the answer is a cycle. -/
theorem collect_exact
    (hmerge : ∀ id, t.Reaches path root id → ∀ id' n,
      t.resolve? path id ≠ .error (.ambiguous id' path n)) :
    (∃ turns, Worklist.Ends t path turns ⟨[root], {}⟩ (collect t path root)) ∧
    ({id | t.Reaches path root id}.encard ≤ maxClosure →
      ∃ c, collect t path root = .ok c ∧
        c.order.Nodup ∧ (∀ id, id ∈ c.order ↔ t.Reaches path root id) ∧
        c.order.head? = some root ∧
        c.order.Pairwise (fun a b => t.distance path root a ≤ t.distance path root b) ∧
        ∀ id ∈ c.order, t.resolve? path id = .ok (c.definition? id) ∧
          (c.definition? id = none ↔ t.variants id = [])) ∧
    (maxClosure < {id | t.Reaches path root id}.encard →
      ∃ ids, collect t path root = .error (.cycle ids) ∧ ids.Nodup ∧
        ids.length = maxClosure + 1 ∧ ∀ id ∈ ids, t.Reaches path root id) := by
  refine ⟨Worklist.exists_ends maxClosure (Nat.zero_add _), fun hsize => ?_,
    exists_collect_eq_cycle hmerge⟩
  obtain ⟨c, hc, hcomplete⟩ := exists_collect_eq_ok hmerge hsize
  have hbreadth := hcomplete.breadthFirst
  refine ⟨c, hc, hbreadth.nodup, fun _ => hbreadth.mem_iff, hbreadth.head?_eq,
    hbreadth.pairwise_distance, fun id hid => ?_⟩
  exact ⟨hcomplete.resolve_eq hid, eq_none_iff_of_resolve? (hcomplete.resolve_eq hid)⟩

/-- Tabs and windows need each other, and frames, which are needed by both, need what needs them.
One id is not defined. -/
def sharedFeatures : FeatureTable :=
  ⟨[("api:menus", [{ dependencies := some ["api:tabs", "api:windows"] }]),
    ("api:tabs", [{ dependencies := some ["api:windows", "permission:tabs", "api:frames"] }]),
    ("api:windows", [{ dependencies := some ["api:frames", "api:tabs"] }]),
    ("api:frames", [{ dependencies := some ["api:menus", "api:frames"] }])]⟩

/-- Each id is gathered once, with those that the root needs itself before the other two. -/
theorem collect_sharedFeatures :
    (∀ id, sharedFeatures.Reaches "menus" "api:menus" id → ∀ id' n,
      sharedFeatures.resolve? "menus" id ≠ .error (.ambiguous id' "menus" n)) ∧
    {id | sharedFeatures.Reaches "menus" "api:menus" id}.encard ≤ maxClosure ∧
    ∃ c, collect sharedFeatures "menus" "api:menus" = .ok c ∧
      c.order = ["api:menus", "api:tabs", "api:windows", "permission:tabs", "api:frames"] ∧
      c.order.Pairwise (fun a b => sharedFeatures.distance "menus" "api:menus" a ≤
        sharedFeatures.distance "menus" "api:menus" b) ∧
      c.definition? "permission:tabs" = none := by
  obtain ⟨c, hc, horder⟩ : ∃ c, collect sharedFeatures "menus" "api:menus" = .ok c ∧
      c.order = ["api:menus", "api:tabs", "api:windows", "permission:tabs", "api:frames"] :=
    ⟨_, rfl, rfl⟩
  have hcomplete := complete_of_collect_eq_ok hc
  have hmerge : ∀ id, sharedFeatures.Reaches "menus" "api:menus" id → ∀ id' n,
      sharedFeatures.resolve? "menus" id ≠ .error (.ambiguous id' "menus" n) := by
    intro id hid id' n he
    rw [hcomplete.resolve_eq (hcomplete.breadthFirst.mem_iff.2 hid)] at he
    cases he
  have hsize : {id | sharedFeatures.Reaches "menus" "api:menus" id}.encard ≤ maxClosure := by
    rw [hcomplete.encard_reaches, horder]
    exact Nat.cast_le.2 (by decide)
  obtain ⟨c', hc', -, -, -, hpairwise, hdefinitions⟩ := (collect_exact hmerge).2.1 hsize
  obtain rfl : c = c' := Except.ok.inj (hc.symm.trans hc')
  have hmem : "permission:tabs" ∈ c.order := by
    rw [horder]
    decide
  exact ⟨hmerge, hsize, c, hc, horder, hpairwise, (hdefinitions _ hmem).2.2 rfl⟩

end Closure

end ApiTypings
