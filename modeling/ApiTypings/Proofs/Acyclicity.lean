import ApiTypings.Feature.Dependencies
import ApiTypings.Proofs.Except
import Mathlib.Data.List.Chain
import Mathlib.Data.List.Nodup
import Mathlib.Data.List.TakeWhile
import Mathlib.Data.Finset.Card
import Mathlib.Logic.Relation
/-!
# Depth-first search finds exactly the cycles

`Closure.visit` goes through a closure depth first. What it has seen is either on the way down to
where it is (`above`) or done with. The invariant is about what is done with (`Closure.Settled`):
all its dependencies are done with too, and none of it lies on a cycle. An id that is met again
while it is on the way down closes a cycle, and the way from it back to itself is the cycle that is
reported.

`checkAcyclic_eq_ok_iff` and `isCycle_of_checkAcyclic` say so for the whole search. No id is entered
twice, so the search never runs out of fuel.
-/

namespace ApiTypings

/-! ### Cycles -/

/-- A chain of ids that are linked one to the next, leads back to where it starts and meets nothing
twice on the way. -/
structure IsCycle (edge : String → String → Prop) (chain : List String) : Prop where
  linked : chain.IsChain edge
  closed : chain.head? = chain.getLast?
  distinct : chain.dropLast.Nodup
  two_le_length : 2 ≤ chain.length

/-- The start of a cycle leads back to itself. -/
theorem IsCycle.exists_transGen {edge : String → String → Prop} {chain : List String}
    (h : IsCycle edge chain) : ∃ id ∈ chain, Relation.TransGen edge id id := by
  obtain ⟨hlinked, hclosed, -, hlen⟩ := h
  match chain, hlen with
  | a :: b :: rest, _ =>
    rw [List.isChain_cons_cons] at hlinked
    have hback : Relation.ReflTransGen edge b ((b :: rest).getLast (by simp)) :=
      List.relationReflTransGen_of_exists_isChain_cons rest hlinked.2 rfl
    have hlast : (b :: rest).getLast (by simp) = a := by
      rw [List.getLast?_cons_cons, List.getLast?_eq_some_getLast (by simp)] at hclosed
      exact (Option.some.inj hclosed).symm
    rw [hlast] at hback
    exact ⟨a, List.mem_cons_self .., .head' hlinked.1 hback⟩

namespace Closure

/-- `b` is a dependency of `a` in the closure. -/
def Edge (c : Closure) (a b : String) : Prop :=
  b ∈ c.dependencies a

variable {c : Closure}

/-- Only what is in a closure has dependencies in it. -/
theorem mem_order_of_edge {a b : String} (h : c.Edge a b) : a ∈ c.order := by
  unfold Edge dependencies definition? at h
  cases hl : c.nodes.lookup a with
  | none => simp [hl] at h
  | some d =>
    obtain ⟨l₁, l₂, hsplit, _⟩ := List.lookup_eq_some_iff.1 hl
    rw [order, hsplit]
    simp

/-! ### The cycle that closes -/

/-- What is above an id leads down to it and meets nothing twice. -/
structure Descent (c : Closure) (above : List String) (id : String) : Prop where
  linked : (id :: above).IsChain fun a b => c.Edge b a
  distinct : above.Nodup

theorem Descent.start (c : Closure) (root : String) : Descent c [] root :=
  ⟨.singleton _, List.nodup_nil⟩

theorem Descent.enter {above : List String} {id dep : String} (h : Descent c above id)
    (hid : id ∉ above) (hdep : c.Edge id dep) : Descent c (id :: above) dep :=
  ⟨List.isChain_cons_cons.2 ⟨hdep, h.linked⟩, List.nodup_cons.2 ⟨hid, h.distinct⟩⟩

theorem cycleAt_subset {above : List String} {id : String} :
    cycleAt above id ⊆ id :: above := by
  intro a ha
  simp only [cycleAt, List.mem_cons, List.mem_append, List.mem_reverse, List.not_mem_nil,
    or_false] at ha
  rcases ha with rfl | ha | rfl
  · exact List.mem_cons_self ..
  · exact List.mem_cons_of_mem _ ((List.takeWhile_sublist _).subset ha)
  · exact List.mem_cons_self ..

/-- What is met again below itself closes a cycle. -/
theorem Descent.isCycle_cycleAt {above : List String} {id : String} (h : Descent c above id)
    (hid : id ∈ above) : IsCycle c.Edge (cycleAt above id) := by
  set inner := above.takeWhile (· ≠ id) with hinner
  have hnot : id ∉ inner := fun hm => by simpa using List.mem_takeWhile_imp hm
  -- On the way down the inner part lies between the two meetings.
  have hprefix : inner ++ [id] <+: above := by
    have hne : above.dropWhile (· ≠ id) ≠ [] := fun hnil => by
      simpa using List.dropWhile_eq_nil_iff.1 hnil id hid
    have hhead := List.head_dropWhile_not (fun x : String => decide (x ≠ id)) hne
    obtain ⟨x, rest, hrest⟩ := List.exists_cons_of_ne_nil hne
    simp only [hrest, List.head_cons, decide_eq_false_iff_not, not_not] at hhead
    refine ⟨rest, ?_⟩
    rw [List.append_assoc, List.singleton_append, ← hhead, ← hrest, hinner,
      List.takeWhile_append_dropWhile]
  have hrev : cycleAt above id = (id :: (inner ++ [id])).reverse := by
    simp [cycleAt, hinner]
  have hinit : (cycleAt above id).dropLast = id :: inner.reverse := by
    rw [cycleAt, ← hinner, ← List.cons_append, List.dropLast_concat]
  constructor
  · rw [hrev, List.isChain_reverse]
    exact h.linked.prefix ((List.prefix_cons_inj id).2 hprefix)
  · rw [cycleAt, ← List.cons_append, List.getLast?_concat]
    rfl
  · rw [hinit, List.nodup_cons, List.mem_reverse, List.nodup_reverse]
    exact ⟨hnot, h.distinct.sublist (List.takeWhile_sublist _)⟩
  · simp [cycleAt]

/-! ### The invariant -/

/-- An id that was seen and left again. -/
def Done (above seen : List String) (id : String) : Prop :=
  id ∈ seen ∧ id ∉ above

/-- What is done with is closed under dependencies, and nothing of it lies on a cycle. -/
structure Settled (c : Closure) (above seen : List String) : Prop where
  closed : ∀ a b, Done above seen a → c.Edge a b → Done above seen b
  acyclic : ∀ a, Done above seen a → ¬Relation.TransGen c.Edge a a

theorem Settled.start (c : Closure) : Settled c [] [] :=
  ⟨fun _ _ ha => absurd ha.1 List.not_mem_nil, fun _ ha => absurd ha.1 List.not_mem_nil⟩

/-- What is reached from something that is done with is done with. -/
theorem Settled.done_of_reflTransGen {above seen : List String} (h : Settled c above seen)
    {a b : String} (ha : Done above seen a) (hab : Relation.ReflTransGen c.Edge a b) :
    Done above seen b := by
  induction hab with
  | refl => exact ha
  | tail _ hbc ih => exact h.closed _ _ ih hbc

/-- Entering an id leaves nothing. -/
theorem Settled.enter {above seen : List String} {id : String} (h : Settled c above seen)
    (hid : id ∉ seen) : Settled c (id :: above) (id :: seen) := by
  have hdone : ∀ a, Done (id :: above) (id :: seen) a → Done above seen a := by
    rintro a ⟨hs, ha⟩
    rw [List.mem_cons, not_or] at ha
    exact ⟨(List.mem_cons.1 hs).resolve_left ha.1, ha.2⟩
  refine ⟨fun a b ha hab => ?_, fun a ha => h.acyclic a (hdone a ha)⟩
  obtain ⟨hb, hb'⟩ := h.closed a b (hdone a ha) hab
  refine ⟨List.mem_cons_of_mem _ hb, fun hm => ?_⟩
  rcases List.mem_cons.1 hm with rfl | hm
  · exact hid hb
  · exact hb' hm

/-- An id is left when all its dependencies are done with. -/
theorem Settled.leave {above seen : List String} {id : String} (h : Settled c (id :: above) seen)
    (hdeps : ∀ dep, c.Edge id dep → Done (id :: above) seen dep) : Settled c above seen := by
  have hweaken : ∀ a, Done (id :: above) seen a → Done above seen a := by
    rintro a ⟨hs, ha⟩
    exact ⟨hs, fun hm => ha (List.mem_cons_of_mem _ hm)⟩
  have hdone : ∀ a, Done above seen a → a = id ∨ Done (id :: above) seen a := by
    rintro a ⟨hs, ha⟩
    by_cases he : a = id
    · exact .inl he
    · exact .inr ⟨hs, fun hm => (List.mem_cons.1 hm).elim he ha⟩
  constructor
  · intro a b ha hab
    rcases hdone a ha with rfl | ha
    · exact hweaken b (hdeps b hab)
    · exact hweaken b (h.closed a b ha hab)
  · intro a ha hcycle
    rcases hdone a ha with rfl | ha
    · -- The way back to the id would start at a dependency, and stay among what is done with.
      obtain ⟨dep, hdep, hback⟩ := Relation.TransGen.head'_iff.1 hcycle
      exact (h.done_of_reflTransGen (hdeps dep hdep) hback).2 (List.mem_cons_self ..)
    · exact h.acyclic a ha hcycle

/-! ### The search -/

/-- Everything above an id has dependencies, so there is no more above it than the closure holds. -/
theorem Descent.length_le {above : List String} {id : String} (h : Descent c above id) :
    above.length ≤ c.nodes.length := by
  have hsource : ∀ (ids : List String) (below : String),
      ((below :: ids).IsChain fun a b => c.Edge b a) → ∀ a ∈ ids, a ∈ c.order := by
    intro ids
    induction ids with
    | nil => simp
    | cons b rest ih =>
      intro below hlinked a ha
      rw [List.isChain_cons_cons] at hlinked
      rcases List.mem_cons.1 ha with rfl | ha
      · exact mem_order_of_edge hlinked.1
      · exact ih b hlinked.2 a ha
  have hle := (List.subperm_of_subset h.distinct (hsource above id h.linked)).length_le
  simpa [order] using hle

/-- Visiting one dependency after another, each of which is then done with, ends with all of them
done with. -/
theorem settled_of_foldlM_eq_ok {visit : List String → String → Except FeatureError (List String)}
    {above deps seen seen' : List String}
    (hvisit : ∀ dep ∈ deps, ∀ seen seen', Settled c above seen → visit seen dep = .ok seen' →
      Settled c above seen' ∧ seen ⊆ seen' ∧ Done above seen' dep)
    (hs : Settled c above seen) (h : deps.foldlM visit seen = .ok seen') :
    Settled c above seen' ∧ seen ⊆ seen' ∧ ∀ dep ∈ deps, Done above seen' dep := by
  induction deps generalizing seen with
  | nil =>
    cases h
    exact ⟨hs, List.Subset.refl _, by simp⟩
  | cons dep deps ih =>
    rw [List.foldlM_cons] at h
    obtain ⟨mid, hv, h⟩ := bind_eq_ok_iff.1 h
    obtain ⟨hs₁, hsub₁, hdone₁⟩ := hvisit dep (List.mem_cons_self ..) seen mid hs hv
    obtain ⟨hs₂, hsub₂, hdone₂⟩ :=
      ih (fun dep' hdep' => hvisit dep' (List.mem_cons_of_mem _ hdep')) hs₁ h
    refine ⟨hs₂, List.Subset.trans hsub₁ hsub₂, fun dep' hdep' => ?_⟩
    rcases List.mem_cons.1 hdep' with rfl | hdep'
    · -- Nothing that was seen is forgotten, and what is above stays the same.
      exact ⟨hsub₂ hdone₁.1, hdone₁.2⟩
    · exact hdone₂ dep' hdep'

/-- A search that comes to an end is done with its id. -/
theorem settled_of_visit_eq_ok {fuel : Nat} {above seen seen' : List String} {id : String}
    (hfuel : c.nodes.length < fuel + above.length) (hd : Descent c above id)
    (hs : Settled c above seen) (h : c.visit fuel above seen id = .ok seen') :
    Settled c above seen' ∧ seen ⊆ seen' ∧ Done above seen' id := by
  induction fuel generalizing above seen seen' id with
  | zero =>
    -- There would be more above the id than the closure holds.
    have hle := hd.length_le
    omega
  | succ fuel ih =>
    rw [visit] at h
    split_ifs at h with habove hseen
    · cases h
      exact ⟨hs, List.Subset.refl _, by simpa using hseen, by simpa using habove⟩
    · have hid : id ∉ above := by simpa using habove
      obtain ⟨hs', hsub, hdeps⟩ := settled_of_foldlM_eq_ok
        (fun dep hdep seen seen' hs h =>
          ih (by rw [List.length_cons]; omega) (hd.enter hid hdep) hs h)
        (hs.enter (by simpa using hseen)) h
      exact ⟨hs'.leave hdeps, List.Subset.trans (List.subset_cons_self _ _) hsub,
        hsub (List.mem_cons_self ..), hid⟩

/-- Visiting one dependency after another fails with the failure of one of them. -/
theorem exists_error_of_foldlM {visit : List String → String → Except FeatureError (List String)}
    {deps seen : List String} {e : FeatureError} (h : deps.foldlM visit seen = .error e) :
    ∃ dep ∈ deps, ∃ seen', visit seen' dep = .error e := by
  induction deps generalizing seen with
  | nil => cases h
  | cons dep deps ih =>
    rw [List.foldlM_cons] at h
    rcases bind_eq_error_iff.1 h with hv | ⟨mid, -, h⟩
    · exact ⟨dep, List.mem_cons_self .., seen, hv⟩
    · obtain ⟨dep', hdep', seen', hv'⟩ := ih h
      exact ⟨dep', List.mem_cons_of_mem _ hdep', seen', hv'⟩

/-- A search that fails has met a cycle among what is reached from the id that it started at. -/
theorem isCycle_of_visit_eq_error {root : String} {fuel : Nat} {above seen : List String}
    {id : String} {e : FeatureError} (hd : Descent c above id)
    (hreach : ∀ a ∈ id :: above, Relation.ReflTransGen c.Edge root a)
    (h : c.visit fuel above seen id = .error e) :
    ∃ chain, e = .cycle chain ∧ IsCycle c.Edge chain ∧
      ∀ a ∈ chain, Relation.ReflTransGen c.Edge root a := by
  induction fuel generalizing above seen id with
  | zero =>
    rw [visit] at h
    split_ifs at h with habove
    cases h
    have hid : id ∈ above := by simpa using habove
    exact ⟨_, rfl, hd.isCycle_cycleAt hid, fun a ha => hreach a (cycleAt_subset ha)⟩
  | succ fuel ih =>
    rw [visit] at h
    split_ifs at h with habove hseen
    · cases h
      have hid : id ∈ above := by simpa using habove
      exact ⟨_, rfl, hd.isCycle_cycleAt hid, fun a ha => hreach a (cycleAt_subset ha)⟩
    · obtain ⟨dep, hdep, seen', hv⟩ := exists_error_of_foldlM h
      refine ih (hd.enter (by simpa using habove) hdep) (fun a ha => ?_) hv
      rcases List.mem_cons.1 ha with rfl | ha
      · exact (hreach id (List.mem_cons_self ..)).tail hdep
      · exact hreach a ha

/-- A search is refused only for a cycle among what is reached from its root. -/
theorem isCycle_of_checkAcyclic {root : String} {e : FeatureError}
    (h : c.checkAcyclic root = .error e) :
    ∃ chain, e = .cycle chain ∧ IsCycle c.Edge chain ∧
      ∀ a ∈ chain, Relation.ReflTransGen c.Edge root a := by
  have hv : c.visit (c.nodes.length + 1) [] [] root = .error e := map_eq_error_iff.1 h
  refine isCycle_of_visit_eq_error (Descent.start c root) (fun a ha => ?_) hv
  rw [List.mem_singleton.1 ha]

/-- **The search is exact**: it comes to an end if and only if nothing that is reached from the root
lies on a cycle. -/
theorem checkAcyclic_eq_ok_iff {root : String} :
    c.checkAcyclic root = .ok () ↔
      ∀ a, Relation.ReflTransGen c.Edge root a → ¬Relation.TransGen c.Edge a a := by
  constructor
  · intro h a ha
    obtain ⟨seen, hv, -⟩ := map_eq_ok_iff.1 h
    obtain ⟨hs, -, hroot⟩ := settled_of_visit_eq_ok (by simp) (Descent.start c root)
      (Settled.start c) hv
    -- The root is done with, so everything that is reached from it is.
    exact hs.acyclic a (hs.done_of_reflTransGen hroot ha)
  · intro hnone
    cases h : c.checkAcyclic root with
    | ok _ => rfl
    | error e =>
      obtain ⟨chain, -, hcycle, hreach⟩ := isCycle_of_checkAcyclic h
      obtain ⟨id, hid, hback⟩ := hcycle.exists_transGen
      exact absurd hback (hnone id (hreach id hid))

end Closure

end ApiTypings
