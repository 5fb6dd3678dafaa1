import ApiTypings.Feature.Definition
import ApiTypings.Feature.Id
/-!
# Tables of feature definitions

A table gives every feature id its definitions. An id with several definitions is a complex feature;
its definitions are its variants, in the order in which they were added.

**Loading.** A feature file is an object from names to definitions or lists of definitions. Loading
goes through it in order and stops at the first bad entry; what was added before stays.
-/

namespace ApiTypings

/-- The definitions of every feature, by id. -/
structure FeatureTable where
  entries : List (String × List Definition) := []
  deriving Repr, Inhabited

namespace FeatureTable

/-- Adds a definition to the entry of an id, or a new entry at the end. -/
def insertEntry (id : String) (d : Definition) :
    List (String × List Definition) → List (String × List Definition)
  | [] => [(id, [d])]
  | (k, ds) :: rest => if k = id then (k, ds ++ [d]) :: rest else (k, ds) :: insertEntry id d rest

/-- The table with one more definition of an id. -/
def insert (t : FeatureTable) (id : String) (d : Definition) : FeatureTable :=
  ⟨insertEntry id d t.entries⟩

/-- The variants of an id; none if the table does not know it. -/
def variants (t : FeatureTable) (id : String) : List Definition :=
  (t.entries.lookup id).getD []

/-- Whether the table knows an id. -/
def contains (t : FeatureTable) (id : String) : Bool :=
  (t.entries.lookup id).isSome

/-- How many ids the table knows. -/
def size (t : FeatureTable) : Nat :=
  t.entries.length

/-- Whether the table knows no id. -/
def isEmpty (t : FeatureTable) : Bool :=
  t.entries.isEmpty

/-! ### What an insertion changes -/

theorem lookup_insertEntry (id key : String) (d : Definition)
    (es : List (String × List Definition)) :
    (insertEntry id d es).lookup key =
      if key = id then some ((es.lookup id).getD [] ++ [d]) else es.lookup key := by
  induction es with
  | nil =>
    by_cases h : key = id
    · subst h; simp [insertEntry]
    · have hb : (key == id) = false := by simpa using h
      simp [insertEntry, List.lookup_cons, h, hb]
  | cons e es ih =>
    obtain ⟨k, ds⟩ := e
    rw [insertEntry]
    by_cases hk : k = id
    · subst hk
      by_cases h : key = k
      · subst h; simp
      · have hb : (key == k) = false := by simpa using h
        simp [List.lookup_cons, h, hb]
    · simp only [hk, if_false]
      have hki : (id == k) = false := by simpa using fun e => hk e.symm
      by_cases h : key = k
      · subst h; simp [hk]
      · have hb : (key == k) = false := by simpa using h
        simp only [List.lookup_cons, hb, ih, hki]

/-- **An insertion adds one variant to its id** and leaves every other id alone. -/
theorem variants_insert (t : FeatureTable) (id key : String) (d : Definition) :
    (t.insert id d).variants key =
      if key = id then t.variants id ++ [d] else t.variants key := by
  simp only [variants, insert, lookup_insertEntry]
  split <;> rfl

/-- After an insertion the table knows its id, and what it knew before. -/
theorem contains_insert (t : FeatureTable) (id key : String) (d : Definition) :
    (t.insert id d).contains key = (decide (key = id) || t.contains key) := by
  simp only [contains, insert, lookup_insertEntry]
  by_cases h : key = id <;> simp [h]

/-! ### Loading -/

/-- Adds the variants of one entry of a feature file, up to the first that is no definition. -/
def loadVariants (id : String) : List Json.Value → FeatureTable → FeatureTable × Option FeatureError
  | [], t => (t, none)
  | v :: vs, t =>
    match Definition.read v with
    | none => (t, some (.malformed id .json))
    | some d => loadVariants id vs (t.insert id d)

/-- Adds the entries of a feature file, up to the first bad one. -/
def loadEntries (kind : FeatureKind) :
    List (String × Json.Value) → FeatureTable → FeatureTable × Option FeatureError
  | [], t => (t, none)
  | (name, entry) :: rest, t =>
    let id := kind.id name
    let loaded := match entry with
      | .array items => loadVariants id items t
      | .object members => loadVariants id [.object members] t
      | other => (t, some (.malformed id (.notADefinition other.compact)))
    match loaded with
    | (t, none) => loadEntries kind rest t
    | failed => failed

/-- Loads the text of a feature file. The answer is the table with what was added, and the error
that stopped the loading, if one did. -/
def load (t : FeatureTable) (kind : FeatureKind) (text : String) :
    FeatureTable × Option FeatureError :=
  match Json.Value.ofText? text with
  | none => (t, some (.malformed kind.fileName .json))
  | some (.object entries) => loadEntries kind entries t
  | some _ => (t, some (.malformed kind.fileName .notAnObject))

/-- Loads feature files in order, or fails with the first error. -/
def ofFiles : List (FeatureKind × String) → FeatureTable → Except FeatureError FeatureTable
  | [], t => .ok t
  | (kind, text) :: rest, t =>
    match t.load kind text with
    | (t, none) => ofFiles rest t
    | (_, some e) => .error e

end FeatureTable

end ApiTypings
