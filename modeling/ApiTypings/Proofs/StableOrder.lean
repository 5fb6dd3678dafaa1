import ApiTypings.Proofs.Nesting
import Mathlib.Data.List.Sort
/-!
# Stable order by a key

Namespaces and members are put in the order of their names by a stable sort. Three things are said
of it: lists that correspond element by element, with the same keys, correspond after sorting
(`forall₂_mergeSort`); with distinct keys the order before does not matter
(`mergeSort_eq_of_perm`); and elements that are added anywhere leave the others in their order
(`sublist_mergeSort_of_sublist`).
-/

namespace ApiTypings

variable {α β : Type} {R : α → β → Prop} {key : α → String} {key' : β → String}

/-- Whether a key comes no later than another. -/
def keyLE (key : α → String) (a b : α) : Bool :=
  key a ≤ key b

theorem keyLE_trans (key : α → String) (a b c : α) (hab : keyLE key a b = true)
    (hbc : keyLE key b c = true) : keyLE key a c = true :=
  decide_eq_true (String.le_trans (of_decide_eq_true (p := key a ≤ key b) hab)
    (of_decide_eq_true (p := key b ≤ key c) hbc))

theorem keyLE_total (key : α → String) (a b : α) : (keyLE key a b || keyLE key b a) = true := by
  rw [Bool.or_eq_true]
  exact (String.le_total (key a) (key b)).imp (fun h => decide_eq_true h) fun h => decide_eq_true h

/-- **Lists side by side.** What corresponds, with equal keys, corresponds after sorting. -/
theorem forall₂_mergeSort {xs : List α} {ys : List β} (h : List.Forall₂ R xs ys)
    (hkey : ∀ x y, R x y → key x = key' y) :
    List.Forall₂ R (xs.mergeSort (keyLE key)) (ys.mergeSort (keyLE key')) := by
  -- The pairs are sorted, by the key of either side.
  obtain ⟨pairs, hpairs, rfl, rfl⟩ : ∃ pairs : List (α × β), (∀ q ∈ pairs, R q.1 q.2) ∧
      pairs.map Prod.fst = xs ∧ pairs.map Prod.snd = ys := by
    induction h with
    | nil => exact ⟨[], nofun, rfl, rfl⟩
    | cons hxy _ ih =>
      obtain ⟨pairs, hpairs, rfl, rfl⟩ := ih
      exact ⟨(_, _) :: pairs, List.forall_mem_cons.2 ⟨hxy, hpairs⟩, rfl, rfl⟩
  have hleft := List.map_mergeSort (l := pairs) (r := keyLE fun q => key q.1) (s := keyLE key)
    (f := Prod.fst) fun _ _ _ _ => rfl
  have hright := List.map_mergeSort (l := pairs) (r := keyLE fun q => key q.1) (s := keyLE key')
    (f := Prod.snd) fun p hp q hq => by
      show decide (key p.1 ≤ key q.1) = decide (key' p.2 ≤ key' q.2)
      rw [hkey _ _ (hpairs p hp), hkey _ _ (hpairs q hq)]
  rw [← hleft, ← hright, List.forall₂_map_left_iff, List.forall₂_map_right_iff,
    List.forall₂_same]
  exact fun q hq => hpairs q (List.mem_mergeSort.1 hq)

/-- **Distinct keys.** The order before sorting does not matter. -/
theorem mergeSort_eq_of_perm {xs ys : List α} (h : xs.Perm ys) (hnodup : (xs.map key).Nodup) :
    xs.mergeSort (keyLE key) = ys.mergeSort (keyLE key) := by
  refine List.Perm.eq_of_pairwise ?_
    (List.pairwise_mergeSort (keyLE_trans key) (keyLE_total key) xs)
    (List.pairwise_mergeSort (keyLE_trans key) (keyLE_total key) ys)
    ((List.mergeSort_perm xs _).trans (h.trans (List.mergeSort_perm ys _).symm))
  intro a b ha hb hab hba
  have hb' : b ∈ xs := h.mem_iff.2 (List.mem_mergeSort.1 hb)
  refine List.inj_on_of_nodup_map hnodup (List.mem_mergeSort.1 ha) hb' ?_
  exact String.le_antisymm (of_decide_eq_true (p := key a ≤ key b) hab)
    (of_decide_eq_true (p := key b ≤ key a) hba)

/-! ### Adding elements -/

/-- An element is inserted behind those that it must not precede, if it may precede the rest. -/
theorem orderedInsert_append {r : α → α → Prop} [DecidableRel r] {a : α} {before after : List α}
    (hbefore : ∀ b ∈ before, ¬r a b) (hafter : ∀ b ∈ after, r a b) :
    (before ++ after).orderedInsert r a = before ++ a :: after := by
  induction before with
  | nil =>
    cases after with
    | nil => rfl
    | cons b after => exact List.orderedInsert_cons_of_le r after (hafter b (List.mem_cons_self ..))
  | cons b before ih =>
    rw [List.cons_append, List.orderedInsert_of_not_le r _ (hbefore b (List.mem_cons_self ..)),
      ih fun c hc => hbefore c (List.mem_cons_of_mem _ hc), List.cons_append]

/-- Sorting inserts the elements one by one, from the last to the first. -/
theorem mergeSort_eq_insertionSort (key : α → String) (xs : List α) :
    xs.mergeSort (keyLE key) = xs.insertionSort fun a b => keyLE key a b = true := by
  induction xs with
  | nil => rw [List.mergeSort_nil, List.insertionSort_nil]
  | cons a xs ih =>
    obtain ⟨before, after, hcons, hxs, hbefore⟩ :=
      List.mergeSort_cons (keyLE_trans key) (keyLE_total key) a xs
    have hsorted := List.pairwise_mergeSort (keyLE_trans key) (keyLE_total key) (a :: xs)
    rw [hcons, List.pairwise_append, List.pairwise_cons] at hsorted
    rw [hcons, List.insertionSort_cons, ← ih, hxs]
    refine (orderedInsert_append (fun b hb hab => ?_) hsorted.2.1.1).symm
    have hnot := hbefore b hb
    rw [hab] at hnot
    cases hnot

/-- **Elements that are added**, anywhere, leave the others in their order. -/
theorem sublist_mergeSort_of_sublist {xs ys : List α} (h : xs.Sublist ys) :
    (xs.mergeSort (keyLE key)).Sublist (ys.mergeSort (keyLE key)) := by
  have htrans : IsTrans α fun a b => keyLE key a b = true := ⟨keyLE_trans key⟩
  rw [mergeSort_eq_insertionSort, mergeSort_eq_insertionSort]
  induction h with
  | slnil => exact List.Sublist.refl _
  | cons a _ ih => exact ih.trans (List.sublist_orderedInsert a _)
  | @cons_cons xs ys a _ ih =>
    have hsorted := List.pairwise_mergeSort (keyLE_trans key) (keyLE_total key) ys
    rw [mergeSort_eq_insertionSort] at hsorted
    exact ih.orderedInsert_sublist a hsorted

end ApiTypings
