import Mathlib.Data.List.Induction
import Mathlib.Data.List.Nodup
/-!
# Lists without repetitions

`List.eraseDups` keeps of equal elements the first. Behind what is kept comes the next element if it
is a new one (`eraseDups_append_singleton`), so there are no repetitions (`nodup_eraseDups`). A loop
that appends an element unless it is there already builds just this list (`foldl_once`).
-/

namespace ApiTypings

variable {α : Type*} [BEq α] [LawfulBEq α]

/-- An element that was there before adds nothing, and a new one is added at the end. -/
theorem eraseDups_append_singleton (xs : List α) (x : α) [Decidable (x ∈ xs)] :
    (xs ++ [x]).eraseDups = if x ∈ xs then xs.eraseDups else xs.eraseDups ++ [x] := by
  rw [List.eraseDups_append]
  split
  · next h => simp [List.removeAll, h]
  · next h => simp [List.removeAll, h, List.eraseDups_cons]

/-- Elements that were there before add nothing. -/
theorem eraseDups_append_of_forall_mem {xs ys : List α} (h : ∀ y ∈ ys, y ∈ xs) :
    (xs ++ ys).eraseDups = xs.eraseDups := by
  have hnil : ys.removeAll xs = [] := by
    rw [List.removeAll, List.filter_eq_nil_iff]
    intro y hy
    simpa using h y hy
  rw [List.eraseDups_append, hnil, List.eraseDups_nil, List.append_nil]

/-- Erasing duplicates leaves no duplicates. -/
theorem nodup_eraseDups (xs : List α) : xs.eraseDups.Nodup := by
  classical
  induction xs using List.reverseRecOn with
  | nil => exact List.nodup_nil
  | append_singleton xs x ih =>
    rw [eraseDups_append_singleton]
    split
    · exact ih
    · next hx =>
      have hx : x ∉ xs.eraseDups := mt List.mem_eraseDups.1 hx
      exact List.nodup_append_comm.1 (List.nodup_cons.2 ⟨hx, ih⟩)

/-- Appending elements one by one, unless they are there already. -/
theorem foldl_once (done xs : List α) :
    xs.foldl (fun done x => if done.contains x then done else done ++ [x]) done =
      done ++ (xs.removeAll done).eraseDups := by
  -- From the end, where the last element meets all that was kept: `done` and what is new in `xs`.
  induction xs using List.reverseRecOn with
  | nil => simp
  | append_singleton xs x ih =>
    have hsplit : (xs ++ [x]).removeAll done = xs.removeAll done ++ [x].removeAll done :=
      List.filter_append ..
    rw [List.foldl_append, ih, hsplit, List.foldl_cons, List.foldl_nil]
    by_cases hx : x ∈ done
    · simp [List.removeAll, hx]
    · have hone : [x].removeAll done = [x] := by simp [List.removeAll, hx]
      have hmem : x ∈ xs.removeAll done ↔ x ∈ done ++ (xs.removeAll done).eraseDups := by
        simp [hx]
      classical
      rw [hone, eraseDups_append_singleton]
      simp only [hmem, List.contains_iff_mem]
      split
      · rfl
      · rw [List.append_assoc]

/-- Such a loop keeps all elements. -/
theorem mem_foldl_once {done xs : List α} {a : α} :
    a ∈ xs.foldl (fun done x => if done.contains x then done else done ++ [x]) done ↔
      a ∈ done ∨ a ∈ xs := by
  rw [foldl_once, List.mem_append, List.mem_eraseDups]
  simp [List.removeAll, or_and_left, em]

end ApiTypings
