import ApiTypings.Json.Fields
import ApiTypings.Text.NameSet
/-!
# Restrictions to a set of names

A feature may be restricted to some contexts, extension types or platforms. In a feature file such a
restriction is one name or a list of names, and `"all"` among them lifts it (`WrittenSet`). Its
meaning is the set of names that pass: everything, or the names of a set (`AllowSet`).

**The two agree.** A name passes a written restriction exactly when it is in the set that the
restriction means (`AllowSet.contains_ofWritten`). Several restrictions at once are their
intersection.
-/

namespace ApiTypings

/-- The name that lifts a restriction. -/
def allKeyword : String := "all"

/-! ### As written -/

/-- A restriction as it is written. -/
inductive WrittenSet
  | keyword (name : String)
  | list (names : List String)
  deriving DecidableEq, Repr, Inhabited

namespace WrittenSet

/-- The names that are written. -/
def items : WrittenSet → List String
  | keyword name => [name]
  | list names => names

/-- Whether a name passes. -/
def contains (s : WrittenSet) (name : String) : Bool :=
  s.items.any fun item => item = allKeyword || item = name

/-- Reads a restriction. -/
def read : Json.Reader WrittenSet
  | .string s => some (keyword s)
  | v => (Json.Reader.strings v).map list

/-- A restriction as a JSON value. -/
def toJson : WrittenSet → Json.Value
  | keyword name => .string name
  | list names => .array (names.map .string)

end WrittenSet

/-! ### As meant -/

/-- The names that pass a restriction: all of them, or those of a set. -/
inductive AllowSet
  | all
  | only (names : NameSet)
  deriving DecidableEq, Repr

namespace AllowSet

instance : Inhabited AllowSet := ⟨all⟩

/-- The names that a list of written names lets pass. -/
def ofItems (items : List String) : AllowSet :=
  if items.contains allKeyword then all else only (NameSet.ofList items)

/-- The names that a written restriction lets pass. -/
def ofWritten (s : WrittenSet) : AllowSet :=
  ofItems s.items

/-- Whether a name passes. -/
def contains : AllowSet → String → Bool
  | all, _ => true
  | only names, name => names.contains name

/-- Whether nothing passes. Only an explicit set can be so. -/
def isEmpty : AllowSet → Bool
  | all => false
  | only names => names.isEmpty

/-- The names of an explicit set. -/
def items? : AllowSet → Option (List String)
  | all => none
  | only names => some names.toList

/-- What passes two restrictions. -/
def inter : AllowSet → AllowSet → AllowSet
  | all, t => t
  | s, all => s
  | only a, only b => only (a.inter b)

/-- What passes one of two restrictions. -/
def union : AllowSet → AllowSet → AllowSet
  | all, _ => all
  | _, all => all
  | only a, only b => only (a.union b)

/-! ### What passes -/

/-- A name passes both restrictions exactly when it passes their intersection. -/
@[simp] theorem contains_inter (s t : AllowSet) (x : String) :
    (s.inter t).contains x = (s.contains x && t.contains x) := by
  cases s <;> cases t <;> simp [inter, contains, NameSet.contains, NameSet.inter]

/-- A name passes one of two restrictions exactly when it passes their union. -/
@[simp] theorem contains_union (s t : AllowSet) (x : String) :
    (s.union t).contains x = (s.contains x || t.contains x) := by
  cases s with
  | all => simp [union, contains]
  | only a =>
    cases t with
    | all => simp [union, contains]
    | only b =>
      simp only [union, contains]
      rw [Bool.eq_iff_iff]
      simp

/-- **Written and meant sets let the same names pass.** -/
theorem contains_ofWritten (s : WrittenSet) (x : String) :
    (ofWritten s).contains x = s.contains x := by
  simp only [ofWritten, ofItems, WrittenSet.contains]
  rw [Bool.eq_iff_iff]
  split <;> rename_i h
  · simp only [contains, true_iff, List.any_eq_true]
    exact ⟨allKeyword, by simpa using h, by simp⟩
  · simp only [contains, NameSet.contains_iff, NameSet.mem_ofList, List.any_eq_true, Bool.or_eq_true,
      decide_eq_true_eq]
    constructor
    · exact fun m => ⟨x, m, .inr rfl⟩
    · rintro ⟨y, m, rfl | rfl⟩
      · simp at h
        exact absurd m h
      · exact m

end AllowSet

end ApiTypings
