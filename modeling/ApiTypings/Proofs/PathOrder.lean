import ApiTypings.Command.Discovery
import Mathlib.Data.List.Lex
import Mathlib.Data.List.Sort
import Mathlib.Data.Prod.Lex
import Mathlib.Data.String.Basic
/-!
# The order of paths

Paths compare by their steps (`pathUpTo`). The order of steps is the lexicographic one of their keys, a
kind and a name (`stepsUpTo_iff`), so it is a total order. Paths that are sorted and lose what has the
steps of the path before are in strictly ascending order (`ascending_distinctNeighbours`), no steps are
lost (`exists_mem_distinctNeighbours`), and the steps of such a list follow from which steps are in it
(`Ascending.map_pathSteps_eq`).
-/

namespace ApiTypings

/-! ### Steps -/

namespace PathStep

/-- What a step is compared by. -/
def key (step : PathStep) : ℕ ×ₗ String :=
  toLex (step.rank, step.name?.getD "")

theorem key_injective : Function.Injective key := by
  intro a b h
  obtain ⟨hrank, hname⟩ := Prod.ext_iff.1 (toLex_inj.1 h)
  cases a <;> cases b <;> simp_all [rank, name?]

theorem precedes_iff {a b : PathStep} : a.precedes b = true ↔ a.key < b.key := by
  cases a <;> cases b <;> simp [precedes, key, rank, name?, Prod.Lex.toLex_lt_toLex]

end PathStep

/-- In the lexicographic order the first elements decide unless they are equal. -/
theorem cons_le_cons_iff {α : Type} [LinearOrder α] {a b : α} {as bs : List α} :
    a :: as ≤ b :: bs ↔ a < b ∨ a = b ∧ as ≤ bs := by
  rw [← not_lt, ← not_lt]
  show ¬List.Lex (· < ·) (b :: bs) (a :: as) ↔ a < b ∨ a = b ∧ ¬List.Lex (· < ·) bs as
  rw [List.cons_lex_cons_iff]
  rcases lt_trichotomy a b with h | rfl | h
  · simp [h, h.ne', h.not_gt]
  · simp
  · simp [h, h.ne', h.not_gt]

variable {as bs cs : List PathStep}

/-- The order of steps is that of their keys. -/
theorem stepsUpTo_iff : stepsUpTo as bs = true ↔ as.map PathStep.key ≤ bs.map PathStep.key := by
  induction as generalizing bs with
  | nil => exact iff_of_true rfl (not_lt.1 List.not_lex_nil)
  | cons a as ih =>
    cases bs with
    | nil => exact iff_of_false Bool.false_ne_true (not_le.2 List.Lex.nil)
    | cons b bs =>
      rw [List.map_cons, List.map_cons, cons_le_cons_iff, ← ih, ← PathStep.precedes_iff,
        PathStep.key_injective.eq_iff]
      simp [stepsUpTo]

theorem stepsUpTo_trans (hab : stepsUpTo as bs = true) (hbc : stepsUpTo bs cs = true) :
    stepsUpTo as cs = true :=
  stepsUpTo_iff.2 (le_trans (stepsUpTo_iff.1 hab) (stepsUpTo_iff.1 hbc))

theorem stepsUpTo_total (as bs : List PathStep) : (stepsUpTo as bs || stepsUpTo bs as) = true := by
  rw [Bool.or_eq_true, stepsUpTo_iff, stepsUpTo_iff]
  exact le_total _ _

theorem stepsUpTo_antisymm (hab : stepsUpTo as bs = true) (hba : stepsUpTo bs as = true) : as = bs :=
  List.map_injective_iff.2 PathStep.key_injective
    (le_antisymm (stepsUpTo_iff.1 hab) (stepsUpTo_iff.1 hba))

/-! ### Ascending paths -/

/-- Every path is before those behind it. -/
def Ascending (paths : List String) : Prop :=
  paths.Pairwise fun p q => pathUpTo p q = true ∧ pathSteps p ≠ pathSteps q

variable {paths paths' : List String}

/-- Which steps are in an ascending list says which steps it consists of. -/
theorem Ascending.map_pathSteps_eq (h : Ascending paths) (h' : Ascending paths')
    (hsteps : ∀ steps, steps ∈ paths.map pathSteps ↔ steps ∈ paths'.map pathSteps) :
    paths.map pathSteps = paths'.map pathSteps := by
  have hantisymm : Std.Antisymm fun as bs => stepsUpTo as bs = true ∧ as ≠ bs :=
    ⟨fun as bs hab hba => stepsUpTo_antisymm hab.1 hba.1⟩
  have hirrefl : Std.Irrefl fun as bs => stepsUpTo as bs = true ∧ as ≠ bs :=
    ⟨fun as has => has.2 rfl⟩
  have hpairs : ∀ {ps : List String}, Ascending ps →
      (ps.map pathSteps).Pairwise fun as bs => stepsUpTo as bs = true ∧ as ≠ bs :=
    fun hps => List.pairwise_map.2 hps
  exact List.Pairwise.eq_of_mem_iff (hpairs h) (hpairs h') hsteps

theorem distinctNeighbours_sublist (paths : List String) :
    (distinctNeighbours paths).Sublist paths := by
  induction paths with
  | nil => exact List.Sublist.refl _
  | cons path rest ih => exact ((List.dropWhile_sublist _).trans ih).cons_cons path

/-- Of paths with the same steps one stays. -/
theorem exists_mem_distinctNeighbours {p : String} (hp : p ∈ paths) :
    ∃ q ∈ distinctNeighbours paths, pathSteps q = pathSteps p := by
  induction paths with
  | nil => exact absurd hp List.not_mem_nil
  | cons path rest ih =>
    unfold distinctNeighbours
    by_cases hsteps : pathSteps path = pathSteps p
    · exact ⟨path, List.mem_cons_self .., hsteps⟩
    · have hrest : p ∈ rest := (List.mem_cons.1 hp).resolve_left fun h => hsteps (h ▸ rfl)
      obtain ⟨q, hq, hqp⟩ := ih hrest
      refine ⟨q, List.mem_cons_of_mem _ ?_, hqp⟩
      -- Only paths with other steps than `p` are dropped.
      have hsplit : (distinctNeighbours rest).takeWhile (pathSteps · = pathSteps path) ++
          (distinctNeighbours rest).dropWhile (pathSteps · = pathSteps path) =
          distinctNeighbours rest := List.takeWhile_append_dropWhile
      rw [← hsplit, List.mem_append] at hq
      refine hq.resolve_left fun h => hsteps ?_
      have hq := List.all_eq_true.1 List.all_takeWhile q h
      rw [← hqp, of_decide_eq_true hq]

/-- What is dropped from ascending paths that are not before a path are those with its steps. -/
theorem pathSteps_ne_of_mem_dropWhile {path q : String} (h : Ascending paths)
    (hpath : ∀ p ∈ paths, pathUpTo path p = true)
    (hq : q ∈ paths.dropWhile fun other => pathSteps other = pathSteps path) :
    pathSteps path ≠ pathSteps q := by
  induction paths with
  | nil => exact absurd hq List.not_mem_nil
  | cons p rest ih =>
    obtain ⟨hp, hrest⟩ := List.pairwise_cons.1 h
    obtain ⟨hpathp, hpathrest⟩ := List.forall_mem_cons.1 hpath
    rw [List.dropWhile_cons] at hq
    split at hq
    · exact ih hrest hpathrest hq
    · next hne =>
      rw [decide_eq_true_iff] at hne
      rintro heq
      obtain rfl | hq := List.mem_cons.1 hq
      · exact hne heq.symm
      · -- The path is between `path` and `q`, which have the same steps.
        have hqp : pathUpTo p path = true := by
          have hpq := (hp q hq).1
          rwa [pathUpTo, ← heq] at hpq
        exact hne (stepsUpTo_antisymm hqp hpathp)

/-- **Sorted paths** that lose what has the steps of the path before are in strictly ascending order. -/
theorem ascending_distinctNeighbours (h : paths.Pairwise fun p q => pathUpTo p q = true) :
    Ascending (distinctNeighbours paths) := by
  induction paths with
  | nil => exact List.Pairwise.nil
  | cons path rest ih =>
    obtain ⟨hpath, hrest⟩ := List.pairwise_cons.1 h
    have hbehind : ∀ p ∈ distinctNeighbours rest, pathUpTo path p = true := fun p hp =>
      hpath p ((distinctNeighbours_sublist rest).subset hp)
    refine List.pairwise_cons.2 ⟨fun q hq => ⟨?_, ?_⟩, (ih hrest).sublist (List.dropWhile_sublist _)⟩
    · exact hbehind q ((List.dropWhile_sublist _).subset hq)
    · exact pathSteps_ne_of_mem_dropWhile (ih hrest) hbehind hq

/-! ### Sorting -/

/-- Paths that are sorted and of which those with the same steps are left out but the first. -/
def sortedPaths (paths : List String) : List String :=
  distinctNeighbours (paths.mergeSort pathUpTo)

theorem ascending_sortedPaths (paths : List String) : Ascending (sortedPaths paths) := by
  refine ascending_distinctNeighbours (List.pairwise_mergeSort (fun p q r => ?_) (fun p q => ?_) paths)
  · exact stepsUpTo_trans
  · exact stepsUpTo_total (pathSteps p) (pathSteps q)

theorem mem_of_mem_sortedPaths {p : String} (hp : p ∈ sortedPaths paths) : p ∈ paths :=
  List.mem_mergeSort.1 ((distinctNeighbours_sublist _).subset hp)

theorem exists_mem_sortedPaths {p : String} (hp : p ∈ paths) :
    ∃ q ∈ sortedPaths paths, pathSteps q = pathSteps p :=
  exists_mem_distinctNeighbours (List.mem_mergeSort.2 hp)

/-- Paths that are sorted only lose what has the steps of the path before. -/
theorem sortedPaths_of_pairwise (h : paths.Pairwise fun p q => pathUpTo p q = true) :
    sortedPaths paths = distinctNeighbours paths := by
  rw [sortedPaths, List.mergeSort_of_pairwise h]

end ApiTypings
