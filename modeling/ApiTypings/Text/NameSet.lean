/-!
# Sets of names

Permissions, manifest keys, platforms and contexts are sets of names, written in ascending order by
code point. A `NameSet` is its strictly ascending list of members, so two sets with the same members
are the same value (`NameSet.ext_mem`), and writing a set is writing its list.

Each operation has one lemma that says which names are members afterwards.
-/

namespace ApiTypings

/-- A finite set of names. -/
structure NameSet where
  /-- The members, in ascending order. -/
  items : List String
  /-- No member twice, none out of order. -/
  ascending : items.Pairwise (· < ·)
  deriving DecidableEq

namespace NameSet

instance : Membership String NameSet where
  mem s x := x ∈ s.items

instance : Repr NameSet where
  reprPrec s n := reprPrec s.items n

instance (x : String) (s : NameSet) : Decidable (x ∈ s) :=
  inferInstanceAs (Decidable (x ∈ s.items))

theorem mem_def {x : String} {s : NameSet} : x ∈ s ↔ x ∈ s.items := Iff.rfl

/-! ### Equality -/

/-- Two ascending lists with the same members are the same list. -/
theorem eq_of_mem_iff : ∀ {xs ys : List String}, xs.Pairwise (· < ·) → ys.Pairwise (· < ·) →
    (∀ z, z ∈ xs ↔ z ∈ ys) → xs = ys
  | [], [], _, _, _ => rfl
  | [], y :: ys, _, _, h => absurd ((h y).2 (by simp)) (by simp)
  | x :: xs, [], _, _, h => absurd ((h x).1 (by simp)) (by simp)
  | x :: xs, y :: ys, hx, hy, h => by
    rw [List.pairwise_cons] at hx hy
    have hxy : x = y := by
      have h1 := (h x).1 (by simp)
      have h2 := (h y).2 (by simp)
      rcases List.mem_cons.1 h1 with h1 | h1
      · exact h1
      · rcases List.mem_cons.1 h2 with h2 | h2
        · exact h2.symm
        · exact absurd (hx.1 y h2) (String.lt_asymm (hy.1 x h1))
    subst hxy
    refine congrArg (x :: ·) (eq_of_mem_iff hx.2 hy.2 fun z => ?_)
    have hz := h z
    simp only [List.mem_cons] at hz
    constructor
    · intro m
      rcases hz.1 (.inr m) with e | m'
      · exact absurd (hx.1 z m) (e ▸ String.lt_irrefl x)
      · exact m'
    · intro m
      rcases hz.2 (.inr m) with e | m'
      · exact absurd (hy.1 z m) (e ▸ String.lt_irrefl x)
      · exact m'

/-- **Extensionality.** A set is determined by its members. -/
theorem ext_mem {s t : NameSet} (h : ∀ x, x ∈ s ↔ x ∈ t) : s = t := by
  obtain ⟨xs, hx⟩ := s
  obtain ⟨ys, hy⟩ := t
  cases eq_of_mem_iff hx hy h
  rfl

/-! ### Building -/

/-- The set without members. -/
def empty : NameSet := ⟨[], .nil⟩

instance : Inhabited NameSet := ⟨empty⟩

instance : EmptyCollection NameSet := ⟨empty⟩

/-- Puts a name into an ascending list, where it belongs. -/
def insertItem (x : String) : List String → List String
  | [] => [x]
  | y :: ys => if x < y then x :: y :: ys else if x = y then y :: ys else y :: insertItem x ys

theorem mem_insertItem {x z : String} {ys : List String} :
    z ∈ insertItem x ys ↔ z = x ∨ z ∈ ys := by
  induction ys with
  | nil => simp [insertItem]
  | cons y ys ih =>
    rw [insertItem]
    split
    · simp
    · split
      · rename_i h; subst h; simp
      · simp only [List.mem_cons, ih]
        constructor
        · rintro (h | h | h) <;> simp [h]
        · rintro (h | h | h) <;> simp [h]

theorem pairwise_insertItem {x : String} {ys : List String} (h : ys.Pairwise (· < ·)) :
    (insertItem x ys).Pairwise (· < ·) := by
  induction ys with
  | nil => simp [insertItem]
  | cons y ys ih =>
    rw [insertItem]
    rw [List.pairwise_cons] at h
    split
    · rename_i hxy
      refine List.pairwise_cons.2 ⟨fun z hz => ?_, List.pairwise_cons.2 h⟩
      rcases List.mem_cons.1 hz with rfl | hz
      · exact hxy
      · exact String.lt_trans hxy (h.1 z hz)
    · split
      · exact List.pairwise_cons.2 h
      · rename_i hlt hne
        refine List.pairwise_cons.2 ⟨fun z hz => ?_, ih h.2⟩
        rcases mem_insertItem.1 hz with rfl | hz
        · rcases String.le_total z y with hle | hle
          · exact absurd (String.le_antisymm hle (String.not_lt.1 hlt)) hne
          · exact Decidable.byContradiction fun hn =>
              hne (String.le_antisymm (String.not_lt.1 hn) hle)
        · exact h.1 z hz

/-- The set with one more name. -/
def insert (s : NameSet) (x : String) : NameSet :=
  ⟨insertItem x s.items, pairwise_insertItem s.ascending⟩

@[simp] theorem mem_insert {s : NameSet} {x z : String} : z ∈ s.insert x ↔ z = x ∨ z ∈ s :=
  mem_insertItem

/-- The set with every name of a list. -/
def insertAll (s : NameSet) (xs : List String) : NameSet :=
  xs.foldl insert s

@[simp] theorem mem_insertAll {s : NameSet} {xs : List String} {z : String} :
    z ∈ s.insertAll xs ↔ z ∈ xs ∨ z ∈ s := by
  induction xs generalizing s with
  | nil => simp [insertAll]
  | cons x xs ih =>
    have := @ih (s.insert x)
    simp only [insertAll, List.foldl_cons, List.mem_cons] at this ⊢
    rw [this, mem_insert]
    constructor
    · rintro (h | h | h) <;> simp [h]
    · rintro ((h | h) | h) <;> simp [h]

/-- The set of the names of a list. -/
def ofList (xs : List String) : NameSet :=
  empty.insertAll xs

theorem not_mem_empty {z : String} : z ∉ empty := by
  simp [mem_def, empty]

@[simp] theorem mem_ofList {xs : List String} {z : String} : z ∈ ofList xs ↔ z ∈ xs := by
  simp [ofList, not_mem_empty]

/-! ### Looking at a set -/

/-- The members, in ascending order. -/
def toList (s : NameSet) : List String :=
  s.items

/-- Whether a name is a member. -/
def contains (s : NameSet) (x : String) : Bool :=
  s.items.contains x

@[simp] theorem contains_iff {s : NameSet} {x : String} : s.contains x = true ↔ x ∈ s := by
  simp [contains, mem_def]

/-- Whether the set has no members. -/
def isEmpty (s : NameSet) : Bool :=
  s.items.isEmpty

theorem isEmpty_iff {s : NameSet} : s.isEmpty = true ↔ ∀ x, x ∉ s := by
  obtain ⟨xs, h⟩ := s
  cases xs with
  | nil => simp [isEmpty, mem_def]
  | cons x xs =>
    simp only [isEmpty, List.isEmpty_cons, Bool.false_eq_true, false_iff]
    exact fun hx => hx x (by simp [mem_def])

/-! ### Combining -/

/-- The names that are in one of two sets. -/
def union (s t : NameSet) : NameSet :=
  s.insertAll t.items

/-- The names that are in both sets. -/
def inter (s t : NameSet) : NameSet :=
  ⟨s.items.filter t.contains, s.ascending.filter _⟩

/-- The names of the first set that are not in the second. -/
def diff (s t : NameSet) : NameSet :=
  ⟨s.items.filter fun x => !t.contains x, s.ascending.filter _⟩

@[simp] theorem mem_union {s t : NameSet} {x : String} : x ∈ s.union t ↔ x ∈ s ∨ x ∈ t := by
  rw [union, mem_insertAll, ← mem_def]
  exact Or.comm

@[simp] theorem mem_inter {s t : NameSet} {x : String} : x ∈ s.inter t ↔ x ∈ s ∧ x ∈ t := by
  simp [inter, mem_def, contains]

@[simp] theorem mem_diff {s t : NameSet} {x : String} : x ∈ s.diff t ↔ x ∈ s ∧ x ∉ t := by
  simp [diff, mem_def, contains]

end NameSet

end ApiTypings
