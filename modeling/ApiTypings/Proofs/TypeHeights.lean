import ApiTypings.Proofs.SchemaTypes
/-!
# How high types are

The height of a type is the number of types on the longest way down into it (`ApiType.height`).

Main statement (`NamespaceNode.height_parse`): there is one bound for the types of all members of all
namespaces that are parsed. A type is one higher than what it is made of, and a node is parsed to at
most two types more than the nodes one level below it (`Graded.gives_parseNode`).
-/

namespace ApiTypings

namespace ApiType

/-! ### Heights -/

mutual

/-- How many types stand one inside the other. -/
def height : ApiType → Nat
  | .primitive _ => 1
  | .literal _ => 1
  | .number _ _ _ => 1
  | .reference _ arguments => heightOfItems arguments + 1
  | .sequence element _ _ => height element + 1
  | .object properties index _ _ => max (heightOfProperties properties) (heightOfIndex index) + 1
  | .intersection items => heightOfItems items + 1
  | .choices items => heightOfItems items + 1
  | .function parameters returns completion _ =>
    max (max (heightOfProperties parameters) (heightOfOption returns))
      (heightOfOption completion) + 1
termination_by structural t => t

/-- The height of the highest of some types. -/
def heightOfItems : List ApiType → Nat
  | [] => 0
  | t :: ts => max (height t) (heightOfItems ts)
termination_by structural t => t

/-- The height of the type of a property. -/
def heightOfProperty : Property ApiType → Nat
  | ⟨_, _, type⟩ => height type
termination_by structural t => t

/-- The height of the highest of the types of some properties. -/
def heightOfProperties : List (Property ApiType) → Nat
  | [] => 0
  | p :: ps => max (heightOfProperty p) (heightOfProperties ps)
termination_by structural t => t

/-- The height of the type of a property, if there is one. -/
def heightOfOption : Option (Property ApiType) → Nat
  | none => 0
  | some p => heightOfProperty p
termination_by structural t => t

/-- The height of the type of further members, if there are any. -/
def heightOfIndex : Option ApiType → Nat
  | none => 0
  | some t => height t
termination_by structural t => t

end

variable {k : Nat}

theorem heightOfProperty_eq (p : Property ApiType) : heightOfProperty p = p.type.height := by
  cases p
  rfl

theorem heightOfItems_le_iff {ts : List ApiType} :
    heightOfItems ts ≤ k ↔ ∀ t ∈ ts, t.height ≤ k := by
  induction ts with
  | nil => exact iff_of_true (Nat.zero_le k) (List.forall_mem_nil _)
  | cons t ts ih => rw [heightOfItems, Nat.max_le, ih, List.forall_mem_cons]

theorem heightOfProperties_le_iff {ps : List (Property ApiType)} :
    heightOfProperties ps ≤ k ↔ ∀ p ∈ ps, p.type.height ≤ k := by
  induction ps with
  | nil => exact iff_of_true (Nat.zero_le k) (List.forall_mem_nil _)
  | cons p ps ih =>
    rw [heightOfProperties, Nat.max_le, ih, heightOfProperty_eq, List.forall_mem_cons]

theorem heightOfOption_le_iff {p? : Option (Property ApiType)} :
    heightOfOption p? ≤ k ↔ ∀ p ∈ p?, p.type.height ≤ k := by
  cases p? with
  | none => exact iff_of_true (Nat.zero_le k) forall_mem_none
  | some p =>
    rw [heightOfOption, heightOfProperty_eq]
    simp only [Option.mem_some_iff, forall_eq']

theorem heightOfIndex_le_iff {t? : Option ApiType} :
    heightOfIndex t? ≤ k ↔ ∀ t ∈ t?, t.height ≤ k := by
  cases t? with
  | none => exact iff_of_true (Nat.zero_le k) forall_mem_none
  | some t =>
    rw [heightOfIndex]
    simp only [Option.mem_some_iff, forall_eq']

/-- A type is one higher than what it is made of. -/
theorem height_le_succ_iff {t : ApiType} :
    t.height ≤ k + 1 ↔ (∀ a ∈ t.parts, a.height ≤ k) ∧ (∀ p ∈ t.nested, p.type.height ≤ k) ∧
      ∀ i ∈ t.index?, i.height ≤ k := by
  cases t with
  | primitive => simp [height, parts, nested, index?]
  | literal => simp [height, parts, nested, index?]
  | number => simp [height, parts, nested, index?]
  | reference => simp [height, parts, nested, index?, heightOfItems_le_iff]
  | sequence => simp [height, parts, nested, index?]
  | object =>
    rw [height, Nat.succ_le_succ_iff, Nat.max_le, heightOfProperties_le_iff, heightOfIndex_le_iff]
    simp [parts, nested, index?]
  | intersection => simp [height, parts, nested, index?, heightOfItems_le_iff]
  | choices => simp [height, parts, nested, index?, heightOfItems_le_iff]
  | function =>
    rw [height, Nat.succ_le_succ_iff, Nat.max_le, Nat.max_le, heightOfProperties_le_iff,
      heightOfOption_le_iff, heightOfOption_le_iff]
    simp [parts, nested, index?, or_imp, forall_and, and_assoc]

end ApiType

/-! ### Parsing -/

theorem graded_height : Graded fun k t => t.height ≤ k :=
  ⟨fun hjk h => Nat.le_trans h hjk,
    fun _ hparts hnested hindex => ApiType.height_le_succ_iff.2 ⟨hparts, hnested, hindex⟩⟩

/-- **One bound for all namespaces**: no type of a member of a namespace that is parsed is higher. -/
theorem NamespaceNode.height_parse (n : NamespaceNode) :
    Gives n.parse fun ns => ∀ p ∈ ns.members, p.type.height ≤ 2 * maxNesting + 3 :=
  graded_height.allWithin_parse n

end ApiTypings
