import ApiTypings.Proofs.Tightening
/-!
# Several restrictions at once

What a restriction means is a set of names, and sets are combined by `AllowSet.inter` and
`AllowSet.union`, one after the other. Main statement (`AllowSet.folds_agree`): however many
restrictions are combined, and in whichever order, a name passes what comes out exactly if it passes
every one of the restrictions as they are written, or one of them. Nothing passes a set exactly if the
set counts as empty.

The last part is about the two places where it is asked whether ordinary extensions may use a feature:
`Definition.allowsExtension` looks at a restriction as it is written, and an availability has the
combined one.
-/

namespace ApiTypings

namespace NameSet

theorem inter_right_comm (a b c : NameSet) : (a.inter b).inter c = (a.inter c).inter b :=
  ext_mem fun x => by simp only [mem_inter, and_right_comm]

theorem union_right_comm (a b c : NameSet) : (a.union b).union c = (a.union c).union b :=
  ext_mem fun x => by simp only [mem_union, or_right_comm]

theorem empty_union (a : NameSet) : empty.union a = a :=
  ext_mem fun x => by simp only [mem_union, not_mem_empty, false_or]

end NameSet

namespace AllowSet

/-! ### Two sets -/

theorem inter_right_comm (s t u : AllowSet) : (s.inter t).inter u = (s.inter u).inter t := by
  cases s <;> cases t <;> cases u <;> simp only [inter, NameSet.inter_right_comm]
  -- Without a first restriction the other two change places.
  rename_i a b
  exact congrArg only (NameSet.ext_mem fun x => by simp only [NameSet.mem_inter, and_comm])

theorem union_right_comm (s t u : AllowSet) : (s.union t).union u = (s.union u).union t := by
  cases s <;> cases t <;> cases u <;> simp only [union, NameSet.union_right_comm]

/-- The names of no list add nothing. -/
theorem only_empty_union (s : AllowSet) : (only .empty).union s = s := by
  cases s with
  | all => rfl
  | only names => exact congrArg only (NameSet.empty_union names)

/-- **A set is empty** exactly if no name passes it. -/
theorem isEmpty_iff_forall_contains (s : AllowSet) :
    s.isEmpty = true ↔ ∀ x, s.contains x = false := by
  cases s with
  | all => simp [isEmpty, contains]
  | only names => simp [isEmpty, contains, NameSet.isEmpty_iff, ← Bool.not_eq_true]

/-! ### Many sets -/

/-- What passes all of some written restrictions: at first everything does, and each restriction in
turn leaves less. -/
def meet (sets : List WrittenSet) : AllowSet :=
  sets.foldl (fun s w => s.inter (ofWritten w)) all

/-- What passes one of some written restrictions, of which there is at least a first. -/
def join (first : WrittenSet) (rest : List WrittenSet) : AllowSet :=
  rest.foldl (fun s w => s.union (ofWritten w)) (ofWritten first)

theorem contains_foldl_inter (sets : List WrittenSet) (s : AllowSet) (x : String) :
    (sets.foldl (fun s w => s.inter (ofWritten w)) s).contains x = true ↔
      s.contains x = true ∧ ∀ w ∈ sets, w.contains x = true := by
  induction sets generalizing s with
  | nil => simp
  | cons w sets ih =>
    rw [List.foldl_cons, ih, contains_inter, contains_ofWritten, Bool.and_eq_true, and_assoc,
      List.forall_mem_cons]

theorem contains_foldl_union (sets : List WrittenSet) (s : AllowSet) (x : String) :
    (sets.foldl (fun s w => s.union (ofWritten w)) s).contains x = true ↔
      s.contains x = true ∨ ∃ w ∈ sets, w.contains x = true := by
  induction sets generalizing s with
  | nil => simp
  | cons w sets ih =>
    rw [List.foldl_cons, ih, contains_union, contains_ofWritten, Bool.or_eq_true, or_assoc,
      List.exists_mem_cons_iff]

/-- **A name passes the meet** exactly if it passes every restriction. -/
theorem contains_meet (sets : List WrittenSet) (x : String) :
    (meet sets).contains x = true ↔ ∀ w ∈ sets, w.contains x = true := by
  rw [meet, contains_foldl_inter]
  exact and_iff_right rfl

/-- **A name passes the join** exactly if it passes one of the restrictions. -/
theorem contains_join (first : WrittenSet) (rest : List WrittenSet) (x : String) :
    (join first rest).contains x = true ↔ ∃ w ∈ first :: rest, w.contains x = true := by
  rw [join, contains_foldl_union, contains_ofWritten, List.exists_mem_cons_iff]

theorem meet_perm {sets sets' : List WrittenSet} (h : sets.Perm sets') : meet sets = meet sets' :=
  h.foldl_eq' (fun v _ w _ s => inter_right_comm s (ofWritten v) (ofWritten w)) all

/-- The join may as well start with no names. -/
theorem join_eq_foldl (first : WrittenSet) (rest : List WrittenSet) :
    join first rest =
      (first :: rest).foldl (fun s w => s.union (ofWritten w)) (only .empty) := by
  rw [List.foldl_cons, only_empty_union]
  rfl

theorem join_perm {first first' : WrittenSet} {rest rest' : List WrittenSet}
    (h : (first :: rest).Perm (first' :: rest')) : join first rest = join first' rest' := by
  rw [join_eq_foldl, join_eq_foldl]
  exact h.foldl_eq' (fun v _ w _ s => union_right_comm s (ofWritten v) (ofWritten w)) (only .empty)

end AllowSet

/-! ### Ordinary extensions -/

/-- A feature is open to ordinary extensions if the restriction that it sets lets them pass. -/
theorem Definition.allowsExtension_iff (d : Definition) :
    d.allowsExtension = true ↔
      ∀ w, d.extensionTypes = some w → w.contains extensionType = true := by
  unfold allowsExtension
  cases d.extensionTypes with
  | none => simp
  | some w => simp

/-- Ordinary extensions are left exactly if all definitions that were summed up are open to them. -/
theorem Availability.Aggregates.contains_extensionType {S : String → Definition → Prop}
    {a : Availability} (h : a.Aggregates S) :
    a.extensionTypes.contains Definition.extensionType = true ↔
      ∀ id d, S id d → d.allowsExtension = true := by
  rw [h.extensionTypes.contains_iff]
  simp only [Definition.allowsExtension_iff]
  constructor
  · exact fun hall id d hd w hw => hall w ⟨id, d, hd, hw⟩
  · rintro hall w ⟨id, d, hd, hw⟩
    exact hall id d hd w hw

namespace Resolver

variable {r : Resolver} {path root : String}

theorem contains_extensionType_of_gather {c : Closure} {ids : List String} {b : Bounds}
    (h : r.gather c ids {} = .ok (some b)) :
    b.extensionTypes.contains Definition.extensionType = true ↔
      ∀ id ∈ ids, ∀ d, c.definition? id = some d → d.allowsExtension = true := by
  rcases gather_cases h Availability.Aggregates.empty with ⟨hnone, -⟩ | ⟨b', hb', -, hagg, -⟩
  · cases hnone
  · cases hb'
    have hcontains := hagg.contains_extensionType
    simp only [false_or, and_imp] at hcontains
    exact hcontains.trans ⟨fun hall id hid d hd => hall id d hid hd,
      fun hall id d hid hd => hall id hid d hd⟩

theorem contains_extensionType_of_query {a : Availability} (hroot : r.root? path = some root)
    (h : r.query path = .ok (some a)) :
    a.extensionTypes.contains Definition.extensionType = true ↔
      ∀ id d, r.table.Needs path root id d → d.allowsExtension = true := by
  obtain ⟨c, b, hc, -, hg, ha⟩ := (query_eq_some_iff hroot).1 h
  obtain ⟨a', ha', rfl⟩ := Option.map_eq_some_iff.1 ha
  have hagg := aggregates_of_gather hg
  obtain ⟨-, rfl⟩ := (Bounds.availability?_eq_some_iff hagg).1 ha'
  have hcomplete := Closure.complete_of_collect_eq_ok hc
  rw [(aggregates_dated hagg).contains_extensionType]
  refine forall₂_congr fun id d => imp_congr_left ?_
  rw [FeatureTable.Needs, ← hcomplete.breadthFirst.mem_iff]
  exact and_congr_right fun hid => by rw [hcomplete.definition?_eq hid]

end Resolver

/-! ### Main result -/

namespace AllowSet

/-- **Written and meant restrictions say the same**, however many there are. What several restrictions
mean together does not depend on their order; a name passes their meet exactly if it passes each of
them as it is written, and their join exactly if it passes one of them; and their meet counts as empty
exactly if no name passes it. So whether what is gathered, or the answer of a query, leaves ordinary
extensions is told by what each definition says of them. -/
theorem folds_agree :
    (∀ (sets : List WrittenSet) (x : String),
      (meet sets).contains x = true ↔ ∀ w ∈ sets, w.contains x = true) ∧
    (∀ (first : WrittenSet) (rest : List WrittenSet) (x : String),
      (join first rest).contains x = true ↔ ∃ w ∈ first :: rest, w.contains x = true) ∧
    (∀ sets : List WrittenSet,
      (meet sets).isEmpty = true ↔ ∀ x, (meet sets).contains x = false) ∧
    (∀ sets sets' : List WrittenSet, sets.Perm sets' → meet sets = meet sets') ∧
    (∀ (first first' : WrittenSet) (rest rest' : List WrittenSet),
      (first :: rest).Perm (first' :: rest') → join first rest = join first' rest') ∧
    (∀ (r : Resolver) (c : Closure) (ids : List String) (b : Bounds),
      r.gather c ids {} = .ok (some b) →
        (b.extensionTypes.contains Definition.extensionType = true ↔
          ∀ id ∈ ids, ∀ d, c.definition? id = some d → d.allowsExtension = true)) ∧
    ∀ (r : Resolver) (path root : String) (a : Availability), r.root? path = some root →
      r.query path = .ok (some a) →
        (a.extensionTypes.contains Definition.extensionType = true ↔
          ∀ id d, r.table.Needs path root id d → d.allowsExtension = true) :=
  ⟨contains_meet, contains_join, fun sets => isEmpty_iff_forall_contains (meet sets),
    fun _ _ => meet_perm, fun _ _ _ _ => join_perm,
    fun _ _ _ _ => Resolver.contains_extensionType_of_gather,
    fun _ _ _ _ => Resolver.contains_extensionType_of_query⟩

/-- A feature for extensions and themes that depends on one for platform apps and anything else. -/
def themedFeatures : Resolver where
  table := ⟨[("api:theme", [{
      dependencies := some ["permission:theme"]
      extensionTypes := some (.list ["extension", "theme"]) }]),
    ("permission:theme", [{ extensionTypes := some (.list ["platform_app", "all"]) }])]⟩

/-- Both features are open to ordinary extensions, and so is what they leave together. A definition for
themes alone is not. -/
theorem folds_agree_themedFeatures :
    [WrittenSet.list ["extension"], .keyword "all"].Perm [.keyword "all", .list ["extension"]] ∧
    meet [.list ["extension"], .keyword "all"] = meet [.keyword "all", .list ["extension"]] ∧
    join (.list []) [.keyword "all"] = join (.keyword "all") [.list []] ∧
    (meet [.list ["extension"], .list ["theme"]]).contains "all" = false ∧
    (∃ b, themedFeatures.gather
        ⟨[("permission:theme", some { extensionTypes := some (.keyword "theme") })]⟩
        ["permission:theme"] {} = .ok (some b) ∧
      b.extensionTypes.contains Definition.extensionType = false) ∧
    ∃ a, themedFeatures.query "theme.update" = .ok (some a) ∧
      a.extensionTypes.contains Definition.extensionType = true ∧
        ∀ id d, themedFeatures.table.Needs "theme.update" "api:theme" id d →
          d.allowsExtension = true := by
  obtain ⟨-, -, hempty, hmeet, hjoin, hgather, hquery⟩ := folds_agree
  have hswap : [WrittenSet.list ["extension"], .keyword "all"].Perm
      [.keyword "all", .list ["extension"]] := .swap _ _ _
  obtain ⟨b, hb⟩ : ∃ b, themedFeatures.gather
      ⟨[("permission:theme", some { extensionTypes := some (.keyword "theme") })]⟩
      ["permission:theme"] {} = .ok (some b) := ⟨_, rfl⟩
  have hclosed : b.extensionTypes.contains Definition.extensionType = false := by
    rw [← Bool.not_eq_true, hgather _ _ _ _ hb]
    exact fun hall => absurd (hall _ (List.mem_singleton_self _) _ rfl) (by decide)
  exact ⟨hswap, hmeet _ _ hswap, hjoin _ _ _ _ (.swap _ _ _), (hempty _).1 (by decide) "all",
    ⟨b, hb, hclosed⟩, _, rfl, rfl, (hquery _ _ _ _ rfl rfl).1 rfl⟩

end AllowSet

end ApiTypings
