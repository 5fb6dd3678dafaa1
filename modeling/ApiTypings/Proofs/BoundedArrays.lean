import Mathlib.Algebra.Ring.Nat
import Mathlib.Data.Nat.PSub
import ApiTypings.Proofs.Lowered
/-!
# Arrays with bounds on their length

An array type with bounds is rendered as tuples, one for every length, if the range of lengths is
narrow (`NarrowRange`), and as an array with a few leading elements otherwise. Two things are said of
this form here.

* **Lengths.** It admits every length within the bounds, and it admits no other one exactly if the
  range is narrow or the only bound is a short lower one (`TypeExpr.boundedArray_admits`).
* **Size.** Its text repeats the text of the element `spellings min max` times. Beside a narrow range
  this is at most one more than `maxTupleExpansion` (`ApiType.sequence_repeats`), but nothing bounds
  the lengths of a narrow range, and so nothing bounds the text
  (`ApiType.sequence_repeats_unboundedly`).
-/

namespace ApiTypings

open TypeExpr

/-- A range of lengths that is spelled out: it is not empty, and `maxTupleExpansion` tuples are enough
for it. -/
def NarrowRange (min : ℕ) (max : Option ℕ) : Prop :=
  ∃ m ∈ max, min ≤ m ∧ m - min < maxTupleExpansion

/-! ### The two forms -/

namespace TypeExpr

variable {t : TypeExpr} {min m : ℕ} {max : Option ℕ}

/-- Arrays of at least `min` elements, as far as that can be spelled. -/
def openArray (t : TypeExpr) (min : ℕ) : TypeExpr :=
  if min = 0 then array t
  else tuple (List.replicate (Nat.min min maxTupleExpansion) t) (some t)

/-- Tuples of `count` lengths from `min` on. -/
def tuplesFrom (t : TypeExpr) (min count : ℕ) : List TypeExpr :=
  (List.range' min count).map fun n => tuple (List.replicate n t) none

theorem boundedArray_of_narrow (hmin : min ≤ m) (hwidth : m - min < maxTupleExpansion) :
    t.boundedArray min (some m) = oneOf (t.tuplesFrom min (m - min + 1)) := by
  have hif : t.boundedArray min (some m) = oneOf ((List.range (m - min + 1)).map fun extra =>
      tuple (List.replicate (min + extra) t) none) := if_pos ⟨hmin, hwidth⟩
  rw [hif, tuplesFrom, List.range'_eq_map_range, List.map_map]
  rfl

theorem boundedArray_of_not_narrow (h : ¬NarrowRange min max) :
    t.boundedArray min max = t.openArray min := by
  cases max with
  | none => rfl
  | some m => exact if_neg fun hm => h ⟨m, rfl, hm⟩

/-- The form of bounded arrays with a subtraction that has no result below zero. -/
def boundedArray? (t : TypeExpr) (min : ℕ) : Option ℕ → Option TypeExpr
  | none => some (t.openArray min)
  | some m =>
    if min ≤ m then do
      let width ← m.psub min
      if width < maxTupleExpansion then some (oneOf (t.tuplesFrom min (width + 1)))
      else some (t.openArray min)
    else some (t.openArray min)

/-- **No subtraction goes below zero.** -/
theorem boundedArray?_eq (t : TypeExpr) (min : ℕ) (max : Option ℕ) :
    t.boundedArray? min max = some (t.boundedArray min max) := by
  cases max with
  | none => rfl
  | some m =>
    rw [boundedArray?]
    split_ifs with hmin
    · rw [Nat.psub_eq_sub hmin, Option.bind_eq_bind, Option.bind_some]
      split_ifs with hwidth
      · rw [boundedArray_of_narrow hmin hwidth]
      · rw [boundedArray_of_not_narrow]
        rintro ⟨m', hm', -, hnarrow⟩
        cases hm'
        exact hwidth hnarrow
    · rw [boundedArray_of_not_narrow]
      rintro ⟨m', hm', hle, -⟩
      cases hm'
      exact hmin hle

end TypeExpr

/-- An array type is lowered to the form for its bounds, unless something else takes its place. -/
theorem ApiType.lower_sequence {scope : List String} {path : String} {element : ApiType} {min : ℕ}
    {max : Option ℕ} (hkept : typeOverride? path (.sequence element min max) = none) :
    (ApiType.sequence element min max).lower scope path =
      (element.lower scope path).map fun t => t.boundedArray min max := by
  have hnone : Replacement.find? path (.sequence element min max) = none :=
    Option.map_eq_none_iff.1 hkept
  rw [lower, lowerUnlessParameter, hnone]

/-! ### Lengths -/

namespace TypeExpr

variable {t : TypeExpr} {min m n : ℕ} {max : Option ℕ}

/-- A type admits arrays of the length `n`: it is an array, a tuple with as many elements, a tuple
with no more elements and a rest, or a union one item of which does. -/
inductive AdmitsLength (n : ℕ) : TypeExpr → Prop
  | array {element : TypeExpr} : AdmitsLength n (.array element)
  | tuple {elements : List TypeExpr} (h : elements.length = n) :
      AdmitsLength n (.tuple elements none)
  | openTuple {elements : List TypeExpr} {rest : TypeExpr} (h : elements.length ≤ n) :
      AdmitsLength n (.tuple elements (some rest))
  | union {items : List TypeExpr} {item : TypeExpr} (hi : item ∈ items)
      (h : AdmitsLength n item) : AdmitsLength n (.union items)

theorem admitsLength_tuple_iff {elements : List TypeExpr} :
    AdmitsLength n (.tuple elements none) ↔ elements.length = n :=
  ⟨fun h => by cases h with | tuple h => exact h, .tuple⟩

theorem admitsLength_openTuple_iff {elements : List TypeExpr} {rest : TypeExpr} :
    AdmitsLength n (.tuple elements (some rest)) ↔ elements.length ≤ n :=
  ⟨fun h => by cases h with | openTuple h => exact h, .openTuple⟩

theorem admitsLength_union_iff {items : List TypeExpr} :
    AdmitsLength n (.union items) ↔ ∃ item ∈ items, AdmitsLength n item := by
  constructor
  · intro h
    cases h with
    | union hi h => exact ⟨_, hi, h⟩
  · rintro ⟨item, hi, h⟩
    exact .union hi h

theorem admitsLength_oneOf_iff {items : List TypeExpr} :
    AdmitsLength n (oneOf items) ↔ ∃ item ∈ items, AdmitsLength n item := by
  unfold oneOf
  split
  · -- `never` admits nothing.
    constructor
    · intro h
      cases h
    · rintro ⟨item, hi, -⟩
      cases hi
  · simp
  · exact admitsLength_union_iff

theorem admitsLength_openArray_iff :
    (t.openArray min).AdmitsLength n ↔ Nat.min min maxTupleExpansion ≤ n := by
  unfold openArray
  split_ifs with hmin
  · have hle : Nat.min min maxTupleExpansion ≤ n := by
      rw [hmin]
      exact Nat.le_trans (Nat.min_le_left ..) (Nat.zero_le n)
    exact ⟨fun _ => hle, fun _ => .array⟩
  · rw [admitsLength_openTuple_iff, List.length_replicate]

/-- Tuples of consecutive lengths admit these lengths. -/
theorem admitsLength_tuplesFrom_iff {count : ℕ} :
    (oneOf (t.tuplesFrom min count)).AdmitsLength n ↔ min ≤ n ∧ n < min + count := by
  simp [admitsLength_oneOf_iff, tuplesFrom, admitsLength_tuple_iff, List.mem_range'_1]

/-- A length is within the bounds. -/
def WithinBounds (min : ℕ) (max : Option ℕ) (n : ℕ) : Prop :=
  min ≤ n ∧ ∀ m ∈ max, n ≤ m

/-- A narrow range is admitted as it is. -/
theorem admitsLength_iff_of_narrow (hmin : min ≤ m) (hwidth : m - min < maxTupleExpansion) :
    (t.boundedArray min (some m)).AdmitsLength n ↔ WithinBounds min (some m) n := by
  rw [boundedArray_of_narrow hmin hwidth, admitsLength_tuplesFrom_iff]
  simp only [WithinBounds, Option.mem_some_iff, forall_eq']
  omega

/-- Arrays with a few leading elements say nothing of an upper bound, and only as much of a lower one
as there are elements. -/
theorem openArray_exact_iff :
    (∀ n, (t.openArray min).AdmitsLength n ↔ WithinBounds min max n) ↔
      max = none ∧ min ≤ maxTupleExpansion := by
  simp only [admitsLength_openArray_iff]
  constructor
  · intro hexact
    cases max with
    | none =>
      have hshortest := (hexact (Nat.min min maxTupleExpansion)).1 (Nat.le_refl _)
      exact ⟨rfl, Nat.le_trans hshortest.1 (Nat.min_le_right ..)⟩
    | some m =>
      have hmin : Nat.min min maxTupleExpansion ≤ min := Nat.min_le_left ..
      have hlong := (hexact (min + m + 1)).1 (by omega)
      have hle : min + m + 1 ≤ m := hlong.2 m rfl
      omega
  · rintro ⟨rfl, hshort⟩ n
    have hall : Nat.min min maxTupleExpansion = min := Nat.min_eq_left hshort
    simp [WithinBounds, hall]

/-- **What bounded arrays admit.** Whatever the element type and the bounds, the form in which an
array type is rendered admits every length within the bounds. It admits no other length if and only
if the range is narrow, or there is no upper bound and the lower one is at most `maxTupleExpansion`.
No subtraction on the way goes below zero. -/
theorem boundedArray_admits (t : TypeExpr) (min : ℕ) (max : Option ℕ) :
    (∀ scope path element, typeOverride? path (.sequence element min max) = none →
      element.lower scope path = .ok t →
        (ApiType.sequence element min max).lower scope path = .ok (t.boundedArray min max)) ∧
    t.boundedArray? min max = some (t.boundedArray min max) ∧
    (∀ n, WithinBounds min max n → (t.boundedArray min max).AdmitsLength n) ∧
    ((∀ n, (t.boundedArray min max).AdmitsLength n ↔ WithinBounds min max n) ↔
      NarrowRange min max ∨ max = none ∧ min ≤ maxTupleExpansion) := by
  refine ⟨fun scope path element hkept ht => ?_, boundedArray?_eq t min max, ?_⟩
  · rw [ApiType.lower_sequence hkept, ht]
    rfl
  by_cases hnarrow : NarrowRange min max
  · obtain ⟨m, rfl, hmin, hwidth⟩ := hnarrow
    have hexact (n : ℕ) := admitsLength_iff_of_narrow (t := t) (n := n) hmin hwidth
    exact ⟨fun n => (hexact n).2, fun _ => .inl ⟨m, rfl, hmin, hwidth⟩, fun _ => hexact⟩
  · rw [boundedArray_of_not_narrow hnarrow, openArray_exact_iff]
    refine ⟨fun n hn => ?_, by simp [hnarrow]⟩
    exact admitsLength_openArray_iff.2 (Nat.le_trans (Nat.min_le_left ..) hn.1)

/-! ### Size -/

/-- Whether a character is one of those around the elements of tuples and arrays. -/
def isMark (c : Char) : Bool := ['[', ']', '(', ')', '|', ',', '.', ' '].contains c

/-- A text consists of a word, this many times, and of marks. -/
inductive Repeats (word : String) : ℕ → String → Prop
  | marks {s : String} (h : s.toList.all isMark) : Repeats word 0 s
  | word : Repeats word 1 word
  | append {j k : ℕ} {s s' : String} (h : Repeats word j s) (h' : Repeats word k s') :
      Repeats word (j + k) (s ++ s')

namespace Repeats

variable {word s : String} {k : ℕ}

/-- A character that is no mark comes up in every repetition and nowhere else. -/
theorem count_eq (h : Repeats word k s) {c : Char} (hc : isMark c = false) :
    s.toList.count c = k * word.toList.count c := by
  induction h with
  | marks h =>
    rw [Nat.zero_mul, List.count_eq_zero]
    intro hmem
    have hmark := List.all_eq_true.1 h c hmem
    rw [hc] at hmark
    exact Bool.false_ne_true hmark
  | word => rw [Nat.one_mul]
  | append _ _ ih ih' => rw [String.toList_append, List.count_append, ih, ih', Nat.add_mul]

/-- Marks before and after change nothing. -/
theorem surround (h : Repeats word k s) (before after : String)
    (hbefore : before.toList.all isMark) (hafter : after.toList.all isMark) :
    Repeats word k (before ++ s ++ after) := by
  have hall := ((marks hbefore).append h).append (marks hafter)
  rwa [Nat.zero_add, Nat.add_zero] at hall

/-- Texts with a separator between them repeat a word as often as all of them together. -/
theorem intercalate {α : Type} (sep : String) (hsep : sep.toList.all isMark)
    {f : α → String} {g : α → ℕ} {xs : List α} (h : ∀ x ∈ xs, Repeats word (g x) (f x)) :
    Repeats word (xs.map g).sum (sep.intercalate (xs.map f)) := by
  induction xs with
  | nil => exact marks (by simp)
  | cons x xs ih =>
    obtain ⟨hx, hxs⟩ := List.forall_mem_cons.1 h
    cases xs with
    | nil => simpa using hx
    | cons y ys =>
      have hall := (hx.append (marks hsep)).append (ih hxs)
      rw [Nat.add_zero] at hall
      simpa [String.intercalate_cons_cons] using hall

end Repeats

variable (unit : String) (level : ℕ)

theorem texts_eq_map (tight : Bool) (ts : List TypeExpr) :
    texts unit level tight ts = ts.map (text unit level tight) := by
  induction ts with
  | nil => rfl
  | cons t ts ih => rw [texts, ih, List.map_cons]

/-- In a tight place a type is written as elsewhere, but for parentheses. -/
theorem text_eq_parenthesized (t : TypeExpr) (tight : Bool) :
    ∃ b, t.text unit level tight = parenthesized b (t.text unit level false) := by
  cases t with
  | keyword | literal | array => exact ⟨false, rfl⟩
  | named target arguments => cases arguments <;> exact ⟨false, rfl⟩
  | tuple elements rest => cases rest <;> exact ⟨false, rfl⟩
  | object members => cases members <;> exact ⟨false, rfl⟩
  | intersection | union | arrow => exact ⟨tight, rfl⟩

theorem Repeats.parenthesized {word s : String} {k : ℕ} (h : Repeats word k s) (tight : Bool) :
    Repeats word k (parenthesized tight s) := by
  cases tight with
  | false => exact h
  | true => exact h.surround "(" ")" rfl rfl

theorem repeats_text (t : TypeExpr) (tight : Bool) :
    Repeats (t.text unit level false) 1 (t.text unit level tight) := by
  obtain ⟨b, hb⟩ := t.text_eq_parenthesized unit level tight
  rw [hb]
  exact Repeats.word.parenthesized b

/-- A list of texts each of which has the word once. -/
theorem repeats_commaSeparated {word : String} {texts : List String}
    (h : ∀ s ∈ texts, Repeats word 1 s) : Repeats word texts.length (commaSeparated texts) := by
  have hall := Repeats.intercalate ", " rfl (f := id) h
  simpa [commaSeparated] using hall

theorem repeats_of_mem_replicate {word s : String} {n : ℕ} (h : s ∈ List.replicate n word) :
    Repeats word 1 s := by
  rw [List.eq_of_mem_replicate h]
  exact .word

theorem repeats_tuple (t : TypeExpr) (n : ℕ) (tight : Bool) :
    Repeats (t.text unit level false) n
      ((tuple (List.replicate n t) none).text unit level tight) := by
  rw [text, texts_eq_map, List.map_replicate]
  have hwords : ∀ s ∈ List.replicate n (t.text unit level false),
      Repeats (t.text unit level false) 1 s := fun s hs => repeats_of_mem_replicate hs
  have helements := repeats_commaSeparated hwords
  rw [List.length_replicate] at helements
  exact helements.surround "[" "]" rfl rfl

/-- The leading elements and the rest, of which an array is a rest alone. -/
theorem repeats_openArray (t : TypeExpr) (min : ℕ) (tight : Bool) :
    Repeats (t.text unit level false) (Nat.min min maxTupleExpansion + 1)
      ((t.openArray min).text unit level tight) := by
  have hrest := t.repeats_text unit level true
  unfold openArray
  split_ifs with hmin
  · rw [hmin, text]
    have hnone : Nat.min 0 maxTupleExpansion = 0 := Nat.zero_min _
    have harray := hrest.append (.marks (s := "[]") rfl)
    rw [hnone]
    exact harray
  · rw [text, texts_eq_map, List.map_replicate]
    have hlast := hrest.surround "..." "[]" rfl rfl
    have hall : ∀ s ∈ List.replicate (Nat.min min maxTupleExpansion) (t.text unit level false) ++
        ["..." ++ t.text unit level true ++ "[]"], Repeats (t.text unit level false) 1 s := by
      intro s hs
      rcases List.mem_append.1 hs with hs | hs
      · exact repeats_of_mem_replicate hs
      · rw [List.mem_singleton.1 hs]
        exact hlast
    have hparts := repeats_commaSeparated hall
    rw [List.length_append, List.length_replicate] at hparts
    exact hparts.surround "[" "]" rfl rfl

theorem repeats_tuplesFrom (t : TypeExpr) (min count : ℕ) (tight : Bool) :
    Repeats (t.text unit level false) (List.range' min (count + 1)).sum
      ((oneOf (t.tuplesFrom min (count + 1))).text unit level tight) := by
  cases count with
  | zero =>
    -- A single tuple is no union.
    exact t.repeats_tuple unit level min tight
  | succ count =>
    have hunion : oneOf (t.tuplesFrom min (count + 1 + 1)) =
        union (t.tuplesFrom min (count + 1 + 1)) := rfl
    rw [hunion, text, texts_eq_map, tuplesFrom, List.map_map]
    have hall := Repeats.intercalate " | " rfl (g := id)
      fun n (_ : n ∈ List.range' min (count + 1 + 1)) =>
        t.repeats_tuple unit level n true
    rw [List.map_id] at hall
    exact hall.parenthesized tight

/-- How often the text of an array type with these bounds repeats the text of its element. -/
def spellings (min : ℕ) : Option ℕ → ℕ
  | none => Nat.min min maxTupleExpansion + 1
  | some m =>
    if min ≤ m ∧ m - min < maxTupleExpansion then (List.range' min (m - min + 1)).sum
    else Nat.min min maxTupleExpansion + 1

theorem spellings_of_narrow (hmin : min ≤ m) (hwidth : m - min < maxTupleExpansion) :
    spellings min (some m) = (List.range' min (m - min + 1)).sum :=
  if_pos ⟨hmin, hwidth⟩

theorem spellings_of_not_narrow (h : ¬NarrowRange min max) :
    spellings min max = Nat.min min maxTupleExpansion + 1 := by
  cases max with
  | none => rfl
  | some m => exact if_neg fun hm => h ⟨m, rfl, hm⟩

/-- **The text of an array type**, exactly. -/
theorem repeats_boundedArray (t : TypeExpr) (min : ℕ) (max : Option ℕ) (tight : Bool) :
    Repeats (t.text unit level false) (spellings min max)
      ((t.boundedArray min max).text unit level tight) := by
  by_cases hnarrow : NarrowRange min max
  · obtain ⟨m, rfl, hmin, hwidth⟩ := hnarrow
    rw [boundedArray_of_narrow hmin hwidth, spellings_of_narrow hmin hwidth]
    exact t.repeats_tuplesFrom unit level min (m - min) tight
  · rw [boundedArray_of_not_narrow hnarrow, spellings_of_not_narrow hnarrow]
    exact t.repeats_openArray unit level min tight

/-- Of a narrow range there are few tuples, each not much longer than the first. -/
theorem spellings_bounds (hmin : min ≤ m) (hwidth : m - min < maxTupleExpansion) :
    min ≤ spellings min (some m) ∧
      spellings min (some m) ≤ maxTupleExpansion * (min + maxTupleExpansion) := by
  rw [spellings_of_narrow hmin hwidth, List.sum_range', Nat.mul_one, Nat.add_sub_cancel]
  set width := m - min
  constructor
  · calc min ≤ (width + 1) * min := Nat.le_mul_of_pos_left _ (Nat.succ_pos width)
      _ ≤ _ := Nat.le_add_right ..
  · calc (width + 1) * min + (width + 1) * width / 2
        ≤ (width + 1) * min + (width + 1) * width :=
          Nat.add_le_add_left (Nat.div_le_self _ 2) _
      _ = (width + 1) * (min + width) := (Nat.mul_add ..).symm
      _ ≤ maxTupleExpansion * (min + maxTupleExpansion) := by
          exact Nat.mul_le_mul hwidth (by omega)

end TypeExpr

/-! ### Array types of the schema -/

namespace ApiType

/-- **How large array types get.** Whatever its bounds, an array type is rendered if its elements
are, and its text consists of theirs, `spellings min max` times, and of marks. Unless the range is
narrow, this is at most one more than `maxTupleExpansion`. For a narrow range it is at least the lower
bound, and at most `maxTupleExpansion` times the lower bound and `maxTupleExpansion` together. -/
theorem sequence_repeats {scope : List String} {path : String} {element : ApiType} {min : ℕ}
    {max : Option ℕ} {t : TypeExpr} (hkept : typeOverride? path (.sequence element min max) = none)
    (ht : element.lower scope path = .ok t) :
    ∃ e, (ApiType.sequence element min max).lower scope path = .ok e ∧
      (∀ unit level tight,
        Repeats (t.text unit level false) (spellings min max) (e.text unit level tight)) ∧
      (¬NarrowRange min max → spellings min max ≤ maxTupleExpansion + 1) ∧
      (NarrowRange min max → min ≤ spellings min max ∧
        spellings min max ≤ maxTupleExpansion * (min + maxTupleExpansion)) := by
  have he : (ApiType.sequence element min max).lower scope path = .ok (t.boundedArray min max) := by
    rw [lower_sequence hkept, ht]
    rfl
  refine ⟨_, he, fun unit level tight => t.repeats_boundedArray unit level min max tight, ?_, ?_⟩
  · intro hwide
    rw [spellings_of_not_narrow hwide]
    exact Nat.succ_le_succ (Nat.min_le_right ..)
  · rintro ⟨m, rfl, hmin, hwidth⟩
    exact spellings_bounds hmin hwidth

/-- Arrays of exactly `n` strings. -/
def strings (n : ℕ) : ApiType := .sequence (.primitive .string) n (some n)

theorem typeOverride?_strings (n : ℕ) : typeOverride? "a.T" (strings n) = none := rfl

/-- Three strings are a narrow range. -/
theorem sequence_repeats_strings : ∃ e, (strings 3).lower [] "a.T" = .ok e ∧
    e.text "  " 0 false = "[string, string, string]" ∧
    Repeats "string" 3 "[string, string, string]" := by
  obtain ⟨e, he, hrepeats, -⟩ := sequence_repeats (typeOverride?_strings 3)
    (show ApiType.lower [] "a.T" (.primitive .string) = .ok (.keyword "string") from rfl)
  cases he
  exact ⟨_, rfl, rfl, hrepeats "  " 0 false⟩

/-- **No limit bounds the text of array types.** Arrays of exactly as many strings as one likes have
a narrow range, so each of the strings is spelled. -/
theorem sequence_repeats_unboundedly : ¬∃ bound, ∀ scope path element min max t e,
    element.lower scope path = .ok t →
    (ApiType.sequence element min max).lower scope path = .ok e →
    ∀ unit level tight, ∃ k ≤ bound, Repeats (t.text unit level false) k (e.text unit level tight) := by
  rintro ⟨bound, hbound⟩
  have hstring : ApiType.lower [] "a.T" (.primitive .string) = .ok (.keyword "string") := rfl
  have hstrings : (strings (bound + 1)).lower [] "a.T" =
      .ok ((keyword "string").boundedArray (bound + 1) (some (bound + 1))) :=
    lower_sequence (typeOverride?_strings (bound + 1))
  obtain ⟨k, hk, hrepeats⟩ := hbound _ _ _ _ _ _ _ hstring hstrings "  " 0 false
  -- The letter `s` comes up once in every repetition, so it tells their number.
  have hcount := hrepeats.count_eq (c := 's') rfl
  have hspelled :=
    (keyword "string").repeats_boundedArray "  " 0 (bound + 1) (some (bound + 1)) false
  have hexact := hspelled.count_eq (c := 's') rfl
  have hletter : ((keyword "string").text "  " 0 false).toList.count 's' = 1 := rfl
  rw [hexact, hletter] at hcount
  have hmany : bound + 1 ≤ spellings (bound + 1) (some (bound + 1)) :=
    (spellings_bounds (Nat.le_refl _) (by rw [Nat.sub_self]; decide)).1
  omega

end ApiType

end ApiTypings
