import ApiTypings.Text.Dotted
/-!
# The ancestors of a dotted name

The ancestors of a dotted name are listed from the nearest on. Here they are related to the two ways
in which dotted names are put together:

* `mem_strictAncestors_iff`: the strict ancestors of a name are what it can be named a member of, in
  one step or more.
* `ancestors_member`: below a name, a dotted name has its own ancestors, each as a member of that
  name, and then the ancestors of that name. So a search that finds nothing below a name goes on as
  if it had started there.
-/

namespace ApiTypings

/-! ### Members of members -/

theorem member_member (a b c : String) : member (member a b) c = member a (member b c) := by
  simp only [member, String.append_assoc]

theorem length_lt_member (a s : String) : a.length < (member a s).length := by
  have hdot : ".".length = 1 := rfl
  simp only [member, String.length_append]
  omega

/-- Going down by several segments can start anywhere above. -/
theorem foldl_member (a b : String) (names : List String) :
    names.foldl member (member a b) = member a (names.foldl member b) := by
  induction names generalizing b with
  | nil => rfl
  | cons name names ih => rw [List.foldl_cons, List.foldl_cons, member_member, ih]

/-! ### Segments -/

theorem segments_ne_nil (path : String) : segments path ≠ [] := by
  simp [segments, List.splitOn_ne_nil]

/-- The segments of a member are those before the dot and those behind it. -/
theorem segments_member (a s : String) : segments (member a s) = segments a ++ segments s := by
  have hchars : (member a s).toList = a.toList ++ '.' :: s.toList := by simp [member]
  simp only [segments, hchars, List.splitOn_append_cons_self, List.map_append]

/-- Segments are put together with dots. -/
theorem foldl_member_ofList (first : List Char) (rest : List (List Char)) :
    (rest.map String.ofList).foldl member (String.ofList first) =
      String.ofList (['.'].intercalate (first :: rest)) := by
  induction rest generalizing first with
  | nil => simp
  | cons second rest ih =>
    have hmember : member (String.ofList first) (String.ofList second) =
        String.ofList (first ++ ['.'] ++ second) := by
      apply String.toList_injective
      simp [member]
    rw [List.map_cons, List.foldl_cons, foldl_member, ih, List.intercalate_cons_cons]
    apply String.toList_injective
    simp [member]

/-- A name is reached from its first segment through the others. -/
theorem foldl_member_of_segments {path first : String} {rest : List String}
    (h : segments path = first :: rest) : rest.foldl member first = path := by
  have hjoin : ['.'].intercalate (path.toList.splitOn '.') = path.toList :=
    List.intercalate_splitOn '.'
  unfold segments at h
  cases hsplit : path.toList.splitOn '.' with
  | nil => exact absurd hsplit (List.splitOn_ne_nil _ _)
  | cons start others =>
    rw [hsplit, List.map_cons] at h
    obtain ⟨rfl, rfl⟩ := List.cons.inj h
    rw [foldl_member_ofList, ← hsplit, hjoin, String.ofList_toList]

/-- A member is reached through its segments. -/
theorem foldl_member_segments (a s : String) : (segments s).foldl member a = member a s := by
  cases hs : segments s with
  | nil => exact absurd hs (segments_ne_nil s)
  | cons first rest => rw [List.foldl_cons, foldl_member, foldl_member_of_segments hs]

/-! ### Ancestors -/

theorem beforeDots_append (start : String) (xs ys : List String) :
    beforeDots start (xs ++ ys) = beforeDots start xs ++ beforeDots (xs.foldl member start) ys := by
  induction xs generalizing start with
  | nil => rfl
  | cons x xs ih => rw [List.cons_append, beforeDots, beforeDots, ih, List.foldl_cons,
      List.cons_append]

theorem beforeDots_member (a b : String) (names : List String) :
    beforeDots (member a b) names = (beforeDots b names).map (member a) := by
  induction names generalizing b with
  | nil => rfl
  | cons name names ih => rw [beforeDots, beforeDots, List.map_cons, member_member, ih]

/-- **The strict ancestors of a member** are those inside the name that it is a member of, this
name, and the strict ancestors of this name. -/
theorem strictAncestors_member (a s : String) :
    strictAncestors (member a s) = (strictAncestors s).map (member a) ++ a :: strictAncestors a := by
  cases ha : segments a with
  | nil => exact absurd ha (segments_ne_nil a)
  | cons first rest =>
    cases hs : segments s with
    | nil => exact absurd hs (segments_ne_nil s)
    | cons second others =>
      -- On the way down the segments of the name come first, and what is met there is reversed.
      have hsegments : segments (member a s) = first :: (rest ++ second :: others) := by
        rw [segments_member, ha, hs, List.cons_append]
      simp only [strictAncestors, hsegments, ha, hs, beforeDots_append, foldl_member_of_segments ha,
        beforeDots, beforeDots_member, List.reverse_append, List.reverse_cons, List.map_reverse,
        List.append_assoc, List.singleton_append]

/-- **The ancestors of a member** are its own inside the name that it is a member of, and the
ancestors of this name. -/
theorem ancestors_member (a s : String) :
    ancestors (member a s) = (ancestors s).map (member a) ++ ancestors a := by
  rw [ancestors, strictAncestors_member, ancestors, ancestors, List.map_cons, List.cons_append]

/-- What is met before a segment is what the whole name is a member of. -/
theorem exists_member_of_mem_beforeDots {start a : String} {names : List String}
    (h : a ∈ beforeDots start names) : ∃ s, names.foldl member start = member a s := by
  induction names generalizing start with
  | nil => exact absurd h List.not_mem_nil
  | cons name names ih =>
    rcases List.mem_cons.1 h with rfl | h
    · exact ⟨_, foldl_member a name names⟩
    · exact ih h

/-- **The strict ancestors of a name** are what it is a member of. -/
theorem mem_strictAncestors_iff {path a : String} :
    a ∈ strictAncestors path ↔ ∃ s, path = member a s := by
  constructor
  · intro h
    cases hpath : segments path with
    | nil => exact absurd hpath (segments_ne_nil path)
    | cons first rest =>
      rw [strictAncestors, hpath] at h
      obtain ⟨s, hs⟩ := exists_member_of_mem_beforeDots (List.mem_reverse.1 h)
      rw [foldl_member_of_segments hpath] at hs
      exact ⟨s, hs⟩
  · rintro ⟨s, rfl⟩
    rw [strictAncestors_member]
    simp

/-- The segments of an ancestor come first. -/
theorem segments_prefix_of_mem_ancestors {path a : String} (h : a ∈ ancestors path) :
    segments a <+: segments path := by
  rcases List.mem_cons.1 h with rfl | h
  · exact List.prefix_refl _
  · obtain ⟨s, rfl⟩ := mem_strictAncestors_iff.1 h
    rw [segments_member]
    exact List.prefix_append _ _

end ApiTypings
