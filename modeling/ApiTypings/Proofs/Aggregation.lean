import ApiTypings.Proofs.CyclicDependencies
import Mathlib.Order.Bounds.Basic
/-!
# The availability of a path sums up what it depends on

A query folds definition after definition into bounds. This module says what the bounds are without
an order: for a relation `S` between ids and definitions, `Availability.Aggregates S` says of every
field of an availability which value the members of `S` give it. Absorbing one more definition adds
one member (`Availability.Aggregates.absorb`), so what a query gathers aggregates the whole closure.

* `Resolver.Admits` is the condition for a path to be available.
* `Resolver.query_aggregates` is the main result: the condition is exact, and the availability
  aggregates what is reached from the root of the path.

Only the install location depends on an order: the first definition that has one counts, breadth
first.
-/

namespace ApiTypings

/-! ### Bounds without an order -/

/-- What passes every one of some written restrictions. Restrictions that are lifted do not count;
where none counts, everything passes. -/
structure AllowSet.IsMeet (sets : WrittenSet → Prop) (meet : AllowSet) : Prop where
  eq_all_iff : meet = .all ↔ ∀ w, sets w → allKeyword ∈ w.items
  contains_iff : ∀ x, meet.contains x = true ↔ ∀ w, sets w → w.contains x = true

/-- The union of some lists of names, or everything if there is no list. -/
structure AllowSet.IsUnion (lists : List String → Prop) (union : AllowSet) : Prop where
  eq_all_iff : union = .all ↔ ∀ names, ¬lists names
  contains_iff : union ≠ .all →
    ∀ x, union.contains x = true ↔ ∃ names, lists names ∧ x ∈ names

/-- A value that all values are within, or `none` if there is no value. -/
structure IsBound (within : Nat → Nat → Prop) (values : Nat → Prop) (bound : Option Nat) :
    Prop where
  eq_none_iff : bound = none ↔ ∀ n, ¬values n
  attained : ∀ n, bound = some n → values n
  within_bound : ∀ n, bound = some n → ∀ m, values m → within m n

namespace AllowSet

theorem ofWritten_eq_all_iff {w : WrittenSet} : ofWritten w = all ↔ allKeyword ∈ w.items := by
  unfold ofWritten ofItems
  split_ifs with h
  · simpa using h
  · simpa using h

theorem inter_eq_all_iff {s t : AllowSet} : s.inter t = all ↔ s = all ∧ t = all := by
  cases s <;> cases t <;> simp [inter]

/-- One more restriction narrows the meet. -/
theorem IsMeet.inter {sets : WrittenSet → Prop} {meet : AllowSet} (h : IsMeet sets meet)
    (o : Option WrittenSet) :
    IsMeet (fun w => sets w ∨ o = some w) (meet.inter (o.elim .all ofWritten)) := by
  constructor
  · rw [inter_eq_all_iff, h.eq_all_iff]
    simp only [or_imp, forall_and]
    cases o <;> simp [ofWritten_eq_all_iff]
  · intro x
    rw [contains_inter, Bool.and_eq_true, h.contains_iff]
    simp only [or_imp, forall_and]
    cases o with
    | none => simp [contains]
    | some w => simp [contains_ofWritten]

/-- The meet is empty exactly if no name passes all restrictions. -/
theorem IsMeet.isEmpty_iff {sets : WrittenSet → Prop} {meet : AllowSet} (h : IsMeet sets meet) :
    meet.isEmpty = false ↔ ∃ x, ∀ w, sets w → w.contains x = true := by
  simp only [← h.contains_iff]
  cases meet with
  | all => simp [isEmpty, contains]
  | only names =>
    rw [isEmpty, ← Bool.not_eq_true, NameSet.isEmpty_iff]
    simp [contains]

/-- One more list of names widens the union. -/
theorem IsUnion.tighten {lists : List String → Prop} {names : Option NameSet}
    (h : IsUnion lists (names.elim .all .only)) (o : Option (List String)) :
    IsUnion (fun l => lists l ∨ o = some l)
      ((Bounds.tighten NameSet.union names (o.map NameSet.ofList)).elim .all .only) := by
  obtain ⟨hall, hmem⟩ := h
  cases names with
  | none =>
    -- No list so far, so the union is that of the new one alone.
    have hnone : ∀ l, ¬lists l := hall.1 rfl
    cases o with
    | none => exact ⟨by simpa [Bounds.tighten] using hnone, by simp [Bounds.tighten]⟩
    | some l =>
      refine ⟨⟨fun h => (by cases h), fun h => absurd (.inr rfl) (h l)⟩, fun _ x => ?_⟩
      simp [Bounds.tighten, contains, hnone]
  | some names =>
    have hsome : ∃ l, lists l := by simpa using hall.not.1 (by simp)
    have hmem' : ∀ x, x ∈ names ↔ ∃ l, lists l ∧ x ∈ l := by simpa [contains] using hmem
    cases o with
    | none => exact ⟨by simpa [Bounds.tighten] using hsome, by simpa [Bounds.tighten] using hmem⟩
    | some l =>
      refine ⟨⟨fun h => (by cases h), fun h => absurd (.inr rfl) (h l)⟩, fun _ x => ?_⟩
      simp only [Bounds.tighten, Option.map_some, Option.elim_some, contains, NameSet.contains_iff,
        NameSet.mem_union, NameSet.mem_ofList, hmem', or_and_right, exists_or, Option.some.injEq,
        exists_eq_left']

end AllowSet

/-- One more value tightens a bound. -/
theorem IsBound.tighten {within : Nat → Nat → Prop} {tighter : Nat → Nat → Nat}
    {values : Nat → Prop} {bound : Option Nat} (h : IsBound within values bound)
    (htighter : ∀ a b, (tighter a b = a ∧ within b a) ∨ (tighter a b = b ∧ within a b))
    (hrefl : ∀ a, within a a) (htrans : ∀ a b c, within a b → within b c → within a c)
    (o : Option Nat) :
    IsBound within (fun n => values n ∨ o = some n) (Bounds.tighten tighter bound o) := by
  obtain ⟨hnone, hattained, hwithin⟩ := h
  cases bound with
  | none =>
    -- No value so far, so the new one is the bound.
    have hempty : ∀ n, ¬values n := hnone.1 rfl
    cases o with
    | none => exact ⟨by simpa [Bounds.tighten] using hempty, by simp [Bounds.tighten],
        by simp [Bounds.tighten]⟩
    | some v => exact ⟨⟨fun h => (by cases h), fun h => absurd (.inr rfl) (h v)⟩,
        by simp [Bounds.tighten], by simp [Bounds.tighten, hempty, hrefl]⟩
  | some n =>
    have hn : values n := hattained n rfl
    have hle : ∀ m, values m → within m n := hwithin n rfl
    cases o with
    | none => exact ⟨by simpa [Bounds.tighten] using ⟨n, hn⟩, by simpa [Bounds.tighten] using hn,
        by simpa [Bounds.tighten] using hle⟩
    | some v =>
      refine ⟨⟨fun h => (by cases h), fun h => absurd (.inr rfl) (h v)⟩, ?_, ?_⟩
      · rintro m hm
        obtain rfl : tighter n v = m := by simpa [Bounds.tighten] using hm
        -- The tighter of two bounds is one of them.
        rcases htighter n v with ⟨he, -⟩ | ⟨he, -⟩
        · exact .inl (he.symm ▸ hn)
        · exact .inr (congrArg some he.symm)
      · rintro m hm k hk
        obtain rfl : tighter n v = m := by simpa [Bounds.tighten] using hm
        rcases htighter n v with ⟨he, hv⟩ | ⟨he, hv⟩ <;> rw [he]
        · rcases hk with hk | hk
          · exact hle k hk
          · rwa [← Option.some.inj hk]
        · rcases hk with hk | hk
          · exact htrans k n v (hle k hk) hv
          · rw [← Option.some.inj hk]
            exact hrefl v

/-! ### What a set of definitions leaves -/

/-- Some definition in `S` sets a field to `v`. -/
def Sets {α : Type} (S : String → Definition → Prop) (field : Definition → Option α) (v : α) :
    Prop :=
  ∃ id d, S id d ∧ field d = some v

/-- `S` with one more definition. -/
def Extended (S : String → Definition → Prop) (id : String) (d : Definition) :
    String → Definition → Prop :=
  fun id' d' => S id' d' ∨ (id' = id ∧ d' = d)

variable {S : String → Definition → Prop} {id : String} {d : Definition}

/-- What holds of a definition in the extended set holds of one in the set, or of the new one. -/
theorem exists_extended {P : String → Definition → Prop} :
    (∃ id' d', Extended S id d id' d' ∧ P id' d') ↔ (∃ id' d', S id' d' ∧ P id' d') ∨ P id d := by
  constructor
  · rintro ⟨id', d', hS | ⟨rfl, rfl⟩, hP⟩
    · exact .inl ⟨id', d', hS, hP⟩
    · exact .inr hP
  · rintro (⟨id', d', hS, hP⟩ | hP)
    · exact ⟨id', d', .inl hS, hP⟩
    · exact ⟨id, d, .inr ⟨rfl, rfl⟩, hP⟩

theorem sets_extended {α : Type} {field : Definition → Option α} :
    Sets (Extended S id d) field = fun v => Sets S field v ∨ field d = some v :=
  funext fun _ => propext exists_extended

namespace Availability

/-- The availability that the definitions in `S` leave, in every field that does not depend on their
order. -/
structure Aggregates (S : String → Definition → Prop) (a : Availability) : Prop where
  channel : IsGreatest {c | c = .stable ∨ ∃ id d, S id d ∧ d.releaseChannel = c} a.channel
  permissions : ∀ x, x ∈ a.permissions ↔
    ∃ id d, S id d ∧ FeatureKind.splitId id = .ok (.permission, x)
  manifestKeys : ∀ x, x ∈ a.manifestKeys ↔
    ∃ id d, S id d ∧ FeatureKind.splitId id = .ok (.manifest, x)
  platforms : AllowSet.IsUnion (Sets S (·.platforms)) a.platforms
  contexts : AllowSet.IsMeet (Sets S (·.contexts)) a.contexts
  extensionTypes : AllowSet.IsMeet (Sets S (·.extensionTypes)) a.extensionTypes
  minManifestVersion : IsBound (· ≤ ·) (Sets S (·.minManifestVersion)) a.minManifestVersion
  maxManifestVersion : IsBound (· ≥ ·) (Sets S (·.maxManifestVersion)) a.maxManifestVersion
  disallowForServiceWorkers :
    a.disallowForServiceWorkers = true ↔ Sets S (·.disallowForServiceWorkers) true

/-- Without definitions nothing is restricted. -/
theorem Aggregates.empty : Aggregates (fun _ _ => False) {} where
  channel := ⟨.inl rfl, by rintro c (rfl | ⟨_, _, hS, -⟩); exacts [Nat.le_refl _, hS.elim]⟩
  permissions := by simp [NameSet.not_mem_empty]
  manifestKeys := by simp [NameSet.not_mem_empty]
  platforms := ⟨by simp [Sets], by simp⟩
  contexts := ⟨by simp [Sets], by simp [Sets, AllowSet.contains]⟩
  extensionTypes := ⟨by simp [Sets], by simp [Sets, AllowSet.contains]⟩
  minManifestVersion := ⟨by simp [Sets], by simp, by simp⟩
  maxManifestVersion := ⟨by simp [Sets], by simp, by simp⟩
  disallowForServiceWorkers := by simp [Sets]

/-- With at least one definition, the channel is the one with the fewest users among theirs. -/
theorem Aggregates.isGreatest_channel {a : Availability} (h : a.Aggregates S)
    (hS : ∃ id d, S id d) : IsGreatest {c | ∃ id d, S id d ∧ d.releaseChannel = c} a.channel := by
  refine ⟨?_, fun c hc => h.channel.2 (.inr hc)⟩
  -- A bound of stable leaves no definition but stable ones.
  rcases h.channel.1 with hstable | hmem
  · obtain ⟨id, d, hd⟩ := hS
    have hle : d.releaseChannel.rank ≤ a.channel.rank := h.channel.2 (.inr ⟨id, d, hd, rfl⟩)
    rw [hstable] at hle ⊢
    exact ⟨id, d, hd, Channel.rank_injective (Nat.le_zero.1 hle)⟩
  · exact hmem

end Availability

/-! ### One more definition -/

namespace Channel

/-- The channel with the fewest users among some, and one more. -/
theorem isGreatest_mostRestrictive {channels : Set Channel} {a : Channel}
    (h : IsGreatest channels a) (b : Channel) :
    IsGreatest {c | c ∈ channels ∨ b = c} (mostRestrictive a b) := by
  have hrank := rank_mostRestrictive a b
  constructor
  · unfold mostRestrictive
    split_ifs
    · exact .inr rfl
    · exact .inl h.1
  · rintro c (hc | rfl)
    · have hle : c.rank ≤ a.rank := h.2 hc
      show c.rank ≤ (mostRestrictive a b).rank
      omega
    · show b.rank ≤ (mostRestrictive a b).rank
      omega

end Channel

theorem FeatureKind.mem_insert_iff {kind : FeatureKind} {names : NameSet} {id x : String}
    {kindName : FeatureKind × String} (hsplit : splitId id = .ok kindName) :
    x ∈ (if kindName.1 = kind then names.insert kindName.2 else names) ↔
      x ∈ names ∨ splitId id = .ok (kind, x) := by
  obtain ⟨kind', name⟩ := kindName
  rw [hsplit, Except.ok.injEq, Prod.mk.injEq]
  split_ifs with h
  · subst h
    rw [NameSet.mem_insert, or_comm]
    simp [eq_comm]
  · simp [h]

/-- **One more definition** is absorbed exactly. -/
theorem Bounds.aggregates_absorb {b b' : Bounds} (h : b.absorb id d = .ok b')
    (hb : b.toAvailability.Aggregates S) : b'.toAvailability.Aggregates (Extended S id d) := by
  obtain ⟨kindName, hsplit, h⟩ := bind_eq_ok_iff.1 h
  cases h
  constructor
  · simp only [exists_extended, ← or_assoc]
    exact Channel.isGreatest_mostRestrictive hb.channel d.releaseChannel
  · intro x
    rw [exists_extended, ← hb.permissions]
    exact FeatureKind.mem_insert_iff hsplit
  · intro x
    rw [exists_extended, ← hb.manifestKeys]
    exact FeatureKind.mem_insert_iff hsplit
  · rw [sets_extended]
    exact hb.platforms.tighten d.platforms
  · rw [sets_extended]
    exact hb.contexts.inter d.contexts
  · rw [sets_extended]
    exact hb.extensionTypes.inter d.extensionTypes
  · rw [sets_extended]
    exact hb.minManifestVersion.tighten (by omega) (by omega) (by omega) d.minManifestVersion
  · rw [sets_extended]
    exact hb.maxManifestVersion.tighten (by omega) (by omega) (by omega) d.maxManifestVersion
  · show (b.disallowForServiceWorkers || decide (d.disallowForServiceWorkers = some true)) = true
      ↔ _
    rw [Bool.or_eq_true, decide_eq_true_eq, sets_extended]
    exact or_congr_left hb.disallowForServiceWorkers

/-- The install location of a definition, unless it says nothing. -/
def Definition.statedLocation? (d : Definition) : Option String :=
  d.location.filter (· ≠ "")

/-- A location that was found stays. -/
theorem Bounds.location_absorb {b b' : Bounds} (h : b.absorb id d = .ok b') :
    b'.location = (b.location <|> d.statedLocation?) := by
  obtain ⟨kindName, -, h⟩ := bind_eq_ok_iff.1 h
  cases h
  rfl

/-! ### What a query answers -/

/-- `d` is what `id` is resolved to, and `id` is reached from `root`. -/
def FeatureTable.Needs (t : FeatureTable) (path root id : String) (d : Definition) : Prop :=
  t.Reaches path root id ∧ t.definition? path id = some d

namespace Bounds

variable {b : Bounds}

/-- The manifest versions do not conflict if no required one is later than a permitted one. -/
theorem versionsConflict_eq_false_iff (hb : b.toAvailability.Aggregates S) :
    b.versionsConflict = false ↔
      ∀ lo hi, Sets S (·.minManifestVersion) lo → Sets S (·.maxManifestVersion) hi → lo ≤ hi := by
  have hmin : IsBound (· ≤ ·) (Sets S (·.minManifestVersion)) b.minManifestVersion :=
    hb.minManifestVersion
  have hmax : IsBound (· ≥ ·) (Sets S (·.maxManifestVersion)) b.maxManifestVersion :=
    hb.maxManifestVersion
  unfold versionsConflict
  split
  · rename_i lo hi hlo hhi
    rw [decide_eq_false_iff_not, not_lt]
    constructor
    · intro hle m n hm hn
      exact (hmin.within_bound lo hlo m hm).trans (hle.trans (hmax.within_bound hi hhi n hn))
    · intro h
      exact h lo hi (hmin.attained lo hlo) (hmax.attained hi hhi)
  · -- One of the bounds is not set, so nothing sets its field.
    rename_i hnone
    refine ⟨fun _ lo hi hlo hhi => ?_, fun _ => rfl⟩
    cases hl : b.minManifestVersion with
    | none => exact absurd hlo (hmin.eq_none_iff.1 hl lo)
    | some m =>
      cases hh : b.maxManifestVersion with
      | none => exact absurd hhi (hmax.eq_none_iff.1 hh hi)
      | some n => exact absurd hh (hnone m n hl)

/-- Bounds leave something if contexts, extension types and manifest versions are left. -/
theorem availability?_eq_some_iff (hb : b.toAvailability.Aggregates S) {a : Availability} :
    b.availability? = some a ↔
      ((∃ x, ∀ w, Sets S (·.contexts) w → w.contains x = true) ∧
        (∃ x, ∀ w, Sets S (·.extensionTypes) w → w.contains x = true) ∧
        ∀ lo hi, Sets S (·.minManifestVersion) lo → Sets S (·.maxManifestVersion) hi → lo ≤ hi) ∧
      b.toAvailability = a := by
  rw [← hb.contexts.isEmpty_iff, ← hb.extensionTypes.isEmpty_iff,
    ← versionsConflict_eq_false_iff hb]
  unfold availability?
  split_ifs with h
  · simp only [Bool.or_eq_true] at h
    constructor
    · intro he
      cases he
    · rintro ⟨⟨hc, he, hv⟩, -⟩
      change b.contexts.isEmpty = false at hc
      change b.extensionTypes.isEmpty = false at he
      simp [hc, he, hv] at h
  · simp only [Bool.or_eq_true, not_or, Bool.not_eq_true] at h
    rw [Option.some.injEq]
    exact ⟨fun he => ⟨⟨h.1.1, h.1.2, h.2⟩, he⟩, fun he => he.2⟩

end Bounds

namespace Resolver

variable {r : Resolver} {path root : String}

/-- What has to hold below the root of a path for the path to be available: everything is defined
and passes the gates, and some context, some extension type and the manifest versions are left. -/
structure Admits (r : Resolver) (path root : String) : Prop where
  passes : ∀ id, r.table.Reaches path root id →
    ∃ d, r.table.definition? path id = some d ∧ r.options.gate? d = none
  contexts : ∃ x, ∀ w, Sets (r.table.Needs path root) (·.contexts) w → w.contains x = true
  extensionTypes :
    ∃ x, ∀ w, Sets (r.table.Needs path root) (·.extensionTypes) w → w.contains x = true
  versions : ∀ lo hi, Sets (r.table.Needs path root) (·.minManifestVersion) lo →
    Sets (r.table.Needs path root) (·.maxManifestVersion) hi → lo ≤ hi

/-- Gathering goes through all ids, or stops because one is missing or does not pass the gates. -/
theorem gather_cases {c : Closure} {ids : List String} {b : Bounds} {answer : Option Bounds}
    (h : r.gather c ids b = .ok answer) (hb : b.toAvailability.Aggregates S) :
    (answer = none ∧ ∃ id ∈ ids, ∀ d, c.definition? id = some d → r.options.gate? d ≠ none) ∨
    (∃ b', answer = some b' ∧
      (∀ id ∈ ids, ∃ d, c.definition? id = some d ∧ r.options.gate? d = none) ∧
      b'.toAvailability.Aggregates (fun id d => S id d ∨ (id ∈ ids ∧ c.definition? id = some d)) ∧
      b'.location =
        (b.location <|> (ids.filterMap c.definition?).findSome? (·.statedLocation?))) := by
  induction ids generalizing b S with
  | nil =>
    cases h
    exact .inr ⟨b, rfl, by simp, by simpa using hb, by simp⟩
  | cons id ids ih =>
    unfold gather at h
    split at h
    · rename_i hnone
      cases h
      exact .inl ⟨rfl, id, List.mem_cons_self .., by simp [hnone]⟩
    · rename_i d hd
      split_ifs at h with hgate
      · -- A gate closes, whatever was absorbed before.
        cases h
        refine .inl ⟨rfl, id, List.mem_cons_self .., fun d' hd' => ?_⟩
        obtain rfl : d = d' := Option.some.inj (hd.symm.trans hd')
        exact Option.isSome_iff_ne_none.1 hgate
      · obtain ⟨b₁, hab, h⟩ := bind_eq_ok_iff.1 h
        rcases ih h (Bounds.aggregates_absorb hab hb) with
          ⟨rfl, id', hid', hclosed⟩ | ⟨b', rfl, hpass, hagg, hloc⟩
        · exact .inl ⟨rfl, id', List.mem_cons_of_mem _ hid', hclosed⟩
        · refine .inr ⟨b', rfl, ?_, ?_, ?_⟩
          · intro id' hid'
            rcases List.mem_cons.1 hid' with rfl | hid'
            · exact ⟨d, hd, by simpa using hgate⟩
            · exact hpass id' hid'
          · -- The id joins the set by one side of the disjunction, and the list by the other.
            convert hagg using 3 with id' d'
            rw [Extended, or_assoc, List.mem_cons, or_and_right]
            refine or_congr_right (or_congr_left (and_congr_right ?_))
            rintro rfl
            rw [hd, Option.some.injEq, eq_comm]
          · rw [hloc, Bounds.location_absorb hab, List.filterMap_cons_some hd, List.findSome?_cons]
            cases b.location <;> cases d.statedLocation? <;> rfl

/-- A query that answers has gathered its closure, and what it gathered decides. -/
theorem exists_gather_of_query {answer : Option Availability} (hroot : r.root? path = some root)
    (h : r.query path = .ok answer) :
    ∃ c bounds, Closure.collect r.table path root = .ok c ∧ r.gather c c.order {} = .ok bounds ∧
      answer = (bounds.bind Bounds.availability?).map (r.dated path) := by
  unfold query at h
  rw [hroot] at h
  obtain ⟨c, hc, h⟩ := bind_eq_ok_iff.1 h
  obtain ⟨_, -, h⟩ := bind_eq_ok_iff.1 h
  obtain ⟨bounds, hg, h⟩ := bind_eq_ok_iff.1 h
  exact ⟨c, bounds, hc, hg, (Except.ok.inj h).symm⟩

/-- A path is available exactly if its closure can be gathered and has no cycle, and if everything in
it can be absorbed and leaves something. -/
theorem query_eq_some_iff {a : Availability} (hroot : r.root? path = some root) :
    r.query path = .ok (some a) ↔ ∃ c b, Closure.collect r.table path root = .ok c ∧
      c.checkAcyclic root = .ok () ∧ r.gather c c.order {} = .ok (some b) ∧
        b.availability?.map (r.dated path) = some a := by
  rw [query_eq_of_root hroot]
  simp only [bind_eq_ok_iff]
  constructor
  · rintro ⟨c, hc, ⟨⟩, hacyclic, bounds, hg, h⟩
    cases bounds with
    | none => cases h
    | some b => exact ⟨c, b, hc, hacyclic, hg, Except.ok.inj h⟩
  · rintro ⟨c, b, hc, hacyclic, hg, h⟩
    exact ⟨c, hc, (), hacyclic, some b, hg, congrArg Except.ok h⟩

/-- The history adds to an availability nothing that is aggregated. -/
theorem aggregates_dated {a : Availability} (h : a.Aggregates S) :
    (r.dated path a).Aggregates S := by
  obtain ⟨h₁, h₂, h₃, h₄, h₅, h₆, h₇, h₈, h₉⟩ := h
  unfold dated
  split
  · exact ⟨h₁, h₂, h₃, h₄, h₅, h₆, h₇, h₈, h₉⟩
  · split
    · exact ⟨h₁, h₂, h₃, h₄, h₅, h₆, h₇, h₈, h₉⟩
    · exact ⟨h₁, h₂, h₃, h₄, h₅, h₆, h₇, h₈, h₉⟩

theorem location_dated (a : Availability) : (r.dated path a).location = a.location := by
  unfold dated
  split
  · rfl
  · split <;> rfl

/-- Dates are all that the history adds. -/
theorem undated_dated (b : Bounds) :
    { r.dated path b.toAvailability with
      since := none, deprecatedSince := none, unknownVersion := false } = b.toAvailability := by
  unfold dated
  cases r.history with
  | none => rfl
  | some h => cases hn : h.nearest? path <;> simp only [hn] <;> rfl

/-- **A query aggregates its closure.** If the query of a path answers, then the path is available
exactly if it has a root and what is reached from the root admits it. The availability has the
channel with the fewest users of all that is reached, and in every other field what all that is
reached leaves; the location is the first that is stated in breadth-first order. The history adds
the dates. -/
theorem query_aggregates {answer : Option Availability} (h : r.query path = .ok answer) :
    (r.root? path = none → answer = none) ∧
    ∀ root, r.root? path = some root →
      (answer.isSome = true ↔ r.Admits path root) ∧
      ∀ a, answer = some a →
        IsGreatest {c | ∃ id d, r.table.Needs path root id d ∧ d.releaseChannel = c} a.channel ∧
        a.Aggregates (r.table.Needs path root) ∧
        (∃ order, r.table.BreadthFirst path root order ∧
          a.location = (order.filterMap (r.table.definition? path)).findSome? (·.statedLocation?)) ∧
        r.dated path { a with since := none, deprecatedSince := none, unknownVersion := false } =
          a := by
  constructor
  · intro hroot
    unfold query at h
    rw [hroot] at h
    exact (Except.ok.inj h).symm
  · intro root hroot
    obtain ⟨c, bounds, hc, hg, rfl⟩ := exists_gather_of_query hroot h
    have hcomplete := Closure.complete_of_collect_eq_ok hc
    have hmem : ∀ id, id ∈ c.order ↔ r.table.Reaches path root id :=
      fun id => hcomplete.breadthFirst.mem_iff
    rcases gather_cases hg Availability.Aggregates.empty with
      ⟨rfl, id, hid, hclosed⟩ | ⟨b, rfl, hpass, hagg, hloc⟩
    · -- Something is missing or does not pass, so nothing is admitted.
      refine ⟨⟨fun h => (by cases h), fun hadmits => ?_⟩, fun a ha => ?_⟩
      · obtain ⟨d, hd, hgate⟩ := hadmits.passes id ((hmem id).1 hid)
        rw [← hcomplete.definition?_eq hid] at hd
        exact absurd hgate (hclosed d hd)
      · cases ha
    · have hneeds : (fun id d => False ∨ (id ∈ c.order ∧ c.definition? id = some d)) =
          r.table.Needs path root := by
        ext id d
        rw [false_or, FeatureTable.Needs, ← hmem]
        exact and_congr_right fun hid => by rw [hcomplete.definition?_eq hid]
      rw [hneeds] at hagg
      have hpass' : ∀ id, r.table.Reaches path root id →
          ∃ d, r.table.definition? path id = some d ∧ r.options.gate? d = none := by
        intro id hid
        rw [← hcomplete.definition?_eq ((hmem id).2 hid)]
        exact hpass id ((hmem id).2 hid)
      refine ⟨?_, ?_⟩
      · rw [Option.isSome_map, Option.bind_some, Option.isSome_iff_exists]
        simp only [Bounds.availability?_eq_some_iff hagg, exists_and_left, exists_eq', and_true]
        exact ⟨fun ⟨h₁, h₂, h₃⟩ => ⟨hpass', h₁, h₂, h₃⟩, fun h => ⟨h.2, h.3, h.4⟩⟩
      · intro a ha
        obtain ⟨a', ha', rfl⟩ := Option.map_eq_some_iff.1 ha
        obtain ⟨-, rfl⟩ := (Bounds.availability?_eq_some_iff hagg).1 ha'
        have hdated : (r.dated path b.toAvailability).Aggregates (r.table.Needs path root) :=
          aggregates_dated hagg
        obtain ⟨d, hd, -⟩ := hpass' root .refl
        refine ⟨hdated.isGreatest_channel ⟨root, d, .refl, hd⟩, hdated, ?_, ?_⟩
        · refine ⟨c.order, hcomplete.breadthFirst, ?_⟩
          rw [location_dated, ← List.filterMap_congr fun id hid => hcomplete.definition?_eq hid]
          exact hloc
        · rw [undated_dated]

/-- A feature that needs a permission, and a narrower feature that the permission is for. -/
def combinedFeatures : Resolver where
  table := ⟨[("api:menus", [{ dependencies := some ["permission:menus", "api:tabs"] }]),
    ("permission:menus", [{ channel := some .stable, dependencies := some ["api:tabs"] }]),
    ("api:tabs", [{ channel := some .beta, location := some "", minManifestVersion := some 2 }]),
    ("api:tabs.hide", [{ maxManifestVersion := some 1 }])]⟩

/-- The channel and the manifest version come from the end of the chain, and the path is admitted.
-/
theorem query_combinedFeatures :
    combinedFeatures.query "menus.create" = .ok (some {
      channel := .beta
      permissions := NameSet.ofList ["menus"]
      minManifestVersion := some 2
      unknownVersion := true }) ∧
    combinedFeatures.Admits "menus.create" "api:menus" ∧
    ¬combinedFeatures.Admits "tabs.hide" "api:tabs.hide" := by
  have hquery : combinedFeatures.query "menus.create" = .ok (some {
      channel := .beta
      permissions := NameSet.ofList ["menus"]
      minManifestVersion := some 2
      unknownVersion := true }) := by rfl
  have hhide : combinedFeatures.query "tabs.hide" = .ok none := by rfl
  have hmenus : combinedFeatures.root? "menus.create" = some "api:menus" := by rfl
  have htabs : combinedFeatures.root? "tabs.hide" = some "api:tabs.hide" := by rfl
  have hadmits := ((query_aggregates hquery).2 _ hmenus).1.1 Option.isSome_some
  refine ⟨hquery, hadmits, fun hadmits' => ?_⟩
  have hsome := ((query_aggregates hhide).2 _ htabs).1.2 hadmits'
  cases hsome

end Resolver

end ApiTypings
