import ApiTypings.Proofs.Overloads
import Mathlib.Algebra.Group.Nat.Defs
import Mathlib.Data.List.Nodup
/-!
# Parameters with their positions

Overloads do not say from which positions their parameters come, and two parameters may be equal. So
here parameters carry their positions through the expansion, as part of their types, which nothing
looks into (`Property.placed`, `Property.omissions_map_unplaced`).

Main statements: what is chosen of parameters, said of positions alone. It is any subsequence that has
every required parameter (`Property.mem_choices_iff`), each once (`Property.nodup_choices`), and the
whole comes first (`Property.head_choices`).
-/

namespace ApiTypings

namespace Property

variable {τ : Type}

/-! ### Positions -/

/-- The position of a parameter that carries it. -/
def position (p : Property (ℕ × τ)) : ℕ :=
  p.type.1

/-- A parameter without its position. -/
def unplaced (p : Property (ℕ × τ)) : Property τ :=
  ⟨p.toTraits, p.name, p.type.2⟩

/-- Parameters with their positions, counted from `start`. -/
def placedFrom (start : ℕ) : List (Property τ) → List (Property (ℕ × τ))
  | [] => []
  | p :: ps => ⟨p.toTraits, p.name, (start, p.type)⟩ :: placedFrom (start + 1) ps

/-- Parameters with their positions. -/
def placed (ps : List (Property τ)) : List (Property (ℕ × τ)) :=
  placedFrom 0 ps

/-- The positions of parameters. -/
def positions (ps : List (Property (ℕ × τ))) : List ℕ :=
  ps.map position

/-- The parameters that have to be given. -/
def requireds (ps : List (Property τ)) : List (Property τ) :=
  ps.filter fun p => !p.optional

/-- The parameters that may be left out. -/
def optionals (ps : List (Property τ)) : List (Property τ) :=
  ps.filter fun p => p.optional

@[simp]
theorem positions_nil : positions ([] : List (Property (ℕ × τ))) = [] :=
  rfl

@[simp]
theorem positions_cons (p : Property (ℕ × τ)) (ps : List (Property (ℕ × τ))) :
    positions (p :: ps) = p.position :: positions ps :=
  rfl

@[simp]
theorem positions_append (ps qs : List (Property (ℕ × τ))) :
    positions (ps ++ qs) = positions ps ++ positions qs :=
  List.map_append

@[simp]
theorem position_required (p : Property (ℕ × τ)) : p.required.position = p.position :=
  rfl

theorem optionals_cons_of_optional {p : Property τ} (ps : List (Property τ))
    (hp : p.optional = true) : optionals (p :: ps) = p :: optionals ps :=
  List.filter_cons_of_pos hp

theorem optionals_cons_of_required {p : Property τ} (ps : List (Property τ))
    (hp : ¬p.optional = true) : optionals (p :: ps) = optionals ps :=
  List.filter_cons_of_neg hp

/-! ### Carrying positions -/

theorem placedFrom_append (start : ℕ) (ps qs : List (Property τ)) :
    placedFrom start (ps ++ qs) = placedFrom start ps ++ placedFrom (start + ps.length) qs := by
  induction ps generalizing start with
  | nil => rfl
  | cons p ps ih =>
    have hstart : start + 1 + ps.length = start + (p :: ps).length := by
      rw [List.length_cons]
      omega
    rw [List.cons_append, placedFrom, ih, hstart]
    rfl

theorem unplaced_placedFrom (start : ℕ) (ps : List (Property τ)) :
    (placedFrom start ps).map unplaced = ps := by
  induction ps generalizing start with
  | nil => rfl
  | cons p ps ih => rw [placedFrom, List.map_cons, ih]; rfl

theorem positions_placedFrom (start : ℕ) (ps : List (Property τ)) :
    positions (placedFrom start ps) = List.range' start ps.length := by
  induction ps generalizing start with
  | nil => rfl
  | cons p ps ih =>
    have htail := ih (start + 1)
    unfold positions at htail ⊢
    rw [placedFrom, List.map_cons, htail, List.length_cons, List.range'_succ]
    rfl

/-- Leaving parameters out does not look at positions. -/
theorem omissions_map_unplaced (ps : List (Property (ℕ × τ))) :
    omissions (ps.map unplaced) = (omissions ps).map (List.map unplaced) :=
  @omissions_map (ℕ × τ) τ unplaced (fun _ => rfl) (fun _ => rfl) ps

theorem EndsRequired.placedFrom {ps : List (Property τ)} (h : EndsRequired ps) (start : ℕ) :
    EndsRequired (placedFrom start ps) := by
  intro q hq
  have hlast : q.unplaced ∈ ps.getLast? := by
    rw [← unplaced_placedFrom start ps, List.getLast?_map, Option.mem_def.1 hq]
    rfl
  exact h q.unplaced hlast

theorem optional_placedFrom {ps : List (Property τ)} (h : ∀ p ∈ ps, p.optional = true) (start : ℕ) :
    ∀ q ∈ placedFrom start ps, q.optional = true := by
  intro q hq
  have hmem : q.unplaced ∈ ps := by
    rw [← unplaced_placedFrom start ps]
    exact List.mem_map_of_mem hq
  exact h q.unplaced hmem

/-! ### Choosing -/

variable {ps : List (Property (ℕ × τ))} {p : Property (ℕ × τ)}

/-- The positions of choices, when the first parameter may be left out. -/
theorem positions_choices_of_optional (ps : List (Property (ℕ × τ))) (hp : p.optional = true) :
    (choices (p :: ps)).map positions =
      ((choices ps).map positions).flatMap fun kept => [p.position :: kept, kept] := by
  rw [choices_cons_of_optional ps hp, List.map_flatMap, List.flatMap_map]
  rfl

/-- The positions of choices, when the first parameter has to be given. -/
theorem positions_choices_of_required (ps : List (Property (ℕ × τ))) (hp : ¬p.optional = true) :
    (choices (p :: ps)).map positions =
      ((choices ps).map positions).map (p.position :: ·) := by
  rw [choices_cons_of_required ps (Bool.of_not_eq_true hp), List.map_map, List.map_map]
  rfl

theorem length_choices (ps : List (Property (ℕ × τ))) :
    (choices ps).length = 2 ^ (positions (optionals ps)).length := by
  induction ps with
  | nil => rfl
  | cons p ps ih =>
    by_cases hp : p.optional = true
    · have hpairs : (choices (p :: ps)).length = 2 * (choices ps).length := by
        simp [choices_cons_of_optional ps hp, List.length_flatMap, Nat.mul_comm]
      rw [hpairs, ih, optionals_cons_of_optional ps hp, positions_cons, List.length_cons, Nat.pow_succ,
        Nat.mul_comm]
    · rw [choices_cons_of_required ps (Bool.of_not_eq_true hp), List.length_map, ih,
        optionals_cons_of_required ps hp]

/-- The first choice leaves nothing out. -/
theorem head_choices (ps : List (Property (ℕ × τ))) :
    ((choices ps).map positions).head? = some (positions ps) := by
  induction ps with
  | nil => rfl
  | cons p ps ih =>
    obtain ⟨rest, hrest⟩ := List.head?_eq_some_iff.1 ih
    by_cases hp : p.optional = true
    · rw [positions_choices_of_optional ps hp, hrest]
      rfl
    · rw [positions_choices_of_required ps hp, hrest]
      rfl

theorem positions_optionals_subset (ps : List (Property (ℕ × τ))) :
    positions (optionals ps) ⊆ positions ps :=
  List.map_subset _ (List.filter_subset_self ps)

/-- A call that leaves out some of the optional parameters. -/
def Leaves (ps : List (Property (ℕ × τ))) (call : List ℕ) : Prop :=
  ∃ left ⊆ positions (optionals ps), call = (positions ps).filter (· ∉ left)

theorem filter_positions_of_notMem (ps : List (Property (ℕ × τ))) {left : List ℕ}
    (h : p.position ∉ left) :
    (positions (p :: ps)).filter (· ∉ left) = p.position :: (positions ps).filter (· ∉ left) :=
  List.filter_cons_of_pos (by simpa using h)

theorem filter_positions_of_mem (ps : List (Property (ℕ × τ))) {left : List ℕ}
    (h : p.position ∈ left) :
    (positions (p :: ps)).filter (· ∉ left) = (positions ps).filter (· ∉ left) :=
  List.filter_cons_of_neg (by simpa using h)

/-- Whether a position is left out that is none of `ps` does not matter. -/
theorem filter_positions_congr (hp : p.position ∉ positions ps) {left left' : List ℕ}
    (h : ∀ i, i ≠ p.position → (i ∈ left ↔ i ∈ left')) :
    (positions ps).filter (· ∉ left) = (positions ps).filter (· ∉ left') := by
  refine List.filter_congr fun i hi => ?_
  have hne : i ≠ p.position := fun heq => hp (heq ▸ hi)
  simp [h i hne]

/-- A first parameter that may be left out is given or not. -/
theorem leaves_cons_of_optional (hp : p.position ∉ positions ps) (hoptional : p.optional = true)
    {call : List ℕ} :
    Leaves (p :: ps) call ↔ ∃ kept, Leaves ps kept ∧ call ∈ [p.position :: kept, kept] := by
  unfold Leaves
  rw [optionals_cons_of_optional ps hoptional, positions_cons]
  constructor
  · rintro ⟨left, hleft, rfl⟩
    -- The position of `p` is none of the others, so they do without it in `left`.
    have hsame : (positions ps).filter (· ∉ left) =
        (positions ps).filter (· ∉ left.filter (· ≠ p.position)) :=
      filter_positions_congr hp fun i hi => by simp [hi]
    refine ⟨(positions ps).filter (· ∉ left), ⟨left.filter (· ≠ p.position), ?_, hsame⟩, ?_⟩
    · intro i hi
      obtain ⟨hi, hne⟩ := List.mem_filter.1 hi
      exact (List.mem_cons.1 (hleft hi)).resolve_left (by simpa using hne)
    · by_cases hmem : p.position ∈ left
      · rw [filter_positions_of_mem ps hmem]
        exact List.mem_cons_of_mem _ (List.mem_singleton_self _)
      · rw [filter_positions_of_notMem ps hmem]
        exact List.mem_cons_self ..
  · rintro ⟨kept, ⟨left, hleft, rfl⟩, hcall⟩
    rcases List.mem_pair.1 hcall with rfl | rfl
    · have hnot : p.position ∉ left := fun h => hp (positions_optionals_subset ps (hleft h))
      exact ⟨left, List.subset_cons_of_subset _ hleft, (filter_positions_of_notMem ps hnot).symm⟩
    · refine ⟨p.position :: left, List.cons_subset_cons _ hleft, ?_⟩
      rw [filter_positions_of_mem ps (List.mem_cons_self ..)]
      exact filter_positions_congr hp fun i hi => by simp [hi]

/-- A first parameter that has to be given is given. -/
theorem leaves_cons_of_required (hp : p.position ∉ positions ps) (hrequired : ¬p.optional = true)
    {call : List ℕ} :
    Leaves (p :: ps) call ↔ ∃ kept, Leaves ps kept ∧ p.position :: kept = call := by
  unfold Leaves
  rw [optionals_cons_of_required ps hrequired]
  have hnot {left : List ℕ} (hleft : left ⊆ positions (optionals ps)) : p.position ∉ left :=
    fun h => hp (positions_optionals_subset ps (hleft h))
  constructor
  · rintro ⟨left, hleft, rfl⟩
    exact ⟨_, ⟨left, hleft, rfl⟩, (filter_positions_of_notMem ps (hnot hleft)).symm⟩
  · rintro ⟨kept, ⟨left, hleft, rfl⟩, rfl⟩
    exact ⟨left, hleft, (filter_positions_of_notMem ps (hnot hleft)).symm⟩

/-- **What is chosen** are the positions without some optional ones. -/
theorem mem_choices_iff (hnodup : (positions ps).Nodup) {call : List ℕ} :
    call ∈ (choices ps).map positions ↔ Leaves ps call := by
  induction ps generalizing call with
  | nil => simp [choices, Leaves, optionals]
  | cons p ps ih =>
    obtain ⟨hp, hps⟩ := List.nodup_cons.1 hnodup
    by_cases hoptional : p.optional = true
    · rw [positions_choices_of_optional ps hoptional, leaves_cons_of_optional hp hoptional,
        List.mem_flatMap]
      exact exists_congr fun kept => and_congr_left fun _ => ih hps
    · rw [positions_choices_of_required ps hoptional, leaves_cons_of_required hp hoptional,
        List.mem_map]
      exact exists_congr fun kept => and_congr_left fun _ => ih hps

/-- No two choices are alike. -/
theorem nodup_choices (hnodup : (positions ps).Nodup) : ((choices ps).map positions).Nodup := by
  induction ps with
  | nil => exact List.nodup_singleton _
  | cons p ps ih =>
    obtain ⟨hp, hps⟩ := List.nodup_cons.1 hnodup
    have hnot : ∀ kept ∈ (choices ps).map positions, p.position ∉ kept := by
      intro kept hkept hmem
      obtain ⟨left, -, rfl⟩ := (mem_choices_iff hps).1 hkept
      exact hp (List.mem_filter.1 hmem).1
    by_cases hoptional : p.optional = true
    · rw [positions_choices_of_optional ps hoptional, List.nodup_flatMap]
      refine ⟨fun kept _ => ?_, (ih hps).imp_of_mem fun {kept kept'} hkept hkept' hne => ?_⟩
      · simp
      · -- With `p` a call differs from every call without it, and otherwise the others differ.
        intro call hcall hcall'
        rcases List.mem_pair.1 hcall with rfl | rfl <;> rcases List.mem_pair.1 hcall' with heq | rfl
        · exact hne (List.cons_injective heq)
        · exact hnot _ hkept' (List.mem_cons_self ..)
        · exact hnot _ hkept (heq ▸ List.mem_cons_self ..)
        · exact hne rfl
    · rw [positions_choices_of_required ps hoptional]
      exact (ih hps).map (List.cons_injective)

/-- What is chosen are parameters of the list, as required ones. -/
theorem exists_eq_required_of_mem_choices {kept : List (Property (ℕ × τ))} (h : kept ∈ choices ps) :
    ∀ q ∈ kept, ∃ p ∈ ps, q = p.required := by
  induction ps generalizing kept with
  | nil =>
    rw [List.mem_singleton.1 h]
    exact List.forall_mem_nil _
  | cons p ps ih =>
    have hrest {kept' : List (Property (ℕ × τ))} (hkept' : kept' ∈ choices ps) :
        ∀ q ∈ kept', ∃ p' ∈ p :: ps, q = p'.required := fun q hq => by
      obtain ⟨p', hp', heq⟩ := ih hkept' q hq
      exact ⟨p', List.mem_cons_of_mem p hp', heq⟩
    by_cases hp : p.optional = true
    · rw [choices_cons_of_optional ps hp] at h
      obtain ⟨kept', hkept', h⟩ := List.mem_flatMap.1 h
      rcases List.mem_pair.1 h with rfl | rfl
      · exact List.forall_mem_cons.2 ⟨⟨p, List.mem_cons_self .., rfl⟩, hrest hkept'⟩
      · exact hrest hkept'
    · rw [choices_cons_of_required ps (Bool.of_not_eq_true hp)] at h
      obtain ⟨kept', hkept', rfl⟩ := List.mem_map.1 h
      refine List.forall_mem_cons.2 ⟨⟨p, List.mem_cons_self .., ?_⟩, hrest hkept'⟩
      rw [required, ← Bool.of_not_eq_true hp]

end Property

end ApiTypings
