import ApiTypings.Declaration.Comment
import ApiTypings.Proofs.Ancestors
import ApiTypings.Proofs.Marking
import ApiTypings.Proofs.Tightening
/-!
# Members without a definition

A member that neither the features nor the history know, be it a member of a member, has the
availability of what it is a member of. Two searches go up from its path, one for a definition and
one for a recorded release. Both find nothing on the way to the path that it is a member of, so they
end where they end from there (`Resolver.root?_member`, `Resolver.nearest?_member`), and all else in
a query depends on the path in the wording of an ambiguity only (`Resolver.query_about`).

So nothing is new in the availability of such a member, and its annotation is empty.
`Resolver.unknown_inherits` is the main result.
-/

namespace ApiTypings

/-! ### The path in question is told in errors only -/

namespace Closure

variable (path path' : String)

theorem extend_about (t : FeatureTable) (room : Nat) (queue : List String) (c : Closure) :
    (extend t path room queue c).mapError (FeatureError.about path') =
      extend t path' room queue c := by
  induction room generalizing queue c with
  | zero =>
    unfold extend
    split <;> rfl
  | succ room ih =>
    unfold extend
    split
    · rfl
    · rw [mapError_bind, FeatureTable.resolve?_about]
      exact bind_congr fun d => ih _ _

theorem collect_about (t : FeatureTable) (root : String) :
    (collect t path root).mapError (FeatureError.about path') = collect t path' root :=
  extend_about path path' t maxClosure [root] {}

/-- A cycle is told without the path. -/
theorem checkAcyclic_about (c : Closure) (root : String) :
    (c.checkAcyclic root).mapError (FeatureError.about path') = c.checkAcyclic root := by
  refine FailsWith.mapError_eq fun e he => ?_
  obtain ⟨chain, rfl, -⟩ := isCycle_of_checkAcyclic he
  rfl

end Closure

namespace Resolver

variable {r : Resolver} {path path' s : String}

/-- An id without a known prefix is told without the path. -/
theorem gather_about (c : Closure) (ids : List String) (b : Bounds) :
    (r.gather c ids b).mapError (FeatureError.about path') = r.gather c ids b := by
  refine FailsWith.mapError_eq fun e he => ?_
  obtain ⟨id, rfl⟩ := gather_error he
  rfl

/-- **A query depends on the path** through the root that is found for it and the dates that the
history has for it, and tells it in the error of an ambiguity. -/
theorem query_about (hroot : r.root? path' = r.root? path) (hdated : r.dated path' = r.dated path) :
    r.query path' = (r.query path).mapError (FeatureError.about path') := by
  cases h : r.root? path with
  | none =>
    rw [query_eq_of_root_eq_none h, query_eq_of_root_eq_none (hroot.trans h)]
    rfl
  | some root =>
    -- Of the three stages only the first can tell the path.
    rw [query_eq_of_root h, query_eq_of_root (hroot.trans h), hdated, mapError_bind,
      Closure.collect_about]
    refine bind_congr fun c => ?_
    rw [mapError_bind, Closure.checkAcyclic_about]
    refine bind_congr fun _ => ?_
    rw [mapError_bind, gather_about]
    rfl

/-! ### What is not known -/

/-- A path has neither a definition of its own nor an entry in the history. -/
structure Unknown (r : Resolver) (path : String) : Prop where
  undefined : r.table.contains (FeatureKind.api.id path) = false
  unrecorded : ∀ h ∈ r.history, h.get? path = none

instance : Decidable (r.Unknown path) :=
  decidable_of_iff (r.table.contains (FeatureKind.api.id path) = false ∧
      ∀ h ∈ r.history, h.get? path = none)
    ⟨fun h => ⟨h.1, h.2⟩, fun h => ⟨h.undefined, h.unrecorded⟩⟩

/-- No path is known that is met on the way down from `path` through the segments of `s`, the last
one included. -/
def UnknownBelow (r : Resolver) (path s : String) : Prop :=
  ∀ names, names ≠ [] → names <+: segments s → r.Unknown (names.foldl member path)

instance : Decidable (r.UnknownBelow path s) :=
  decidable_of_iff (∀ names ∈ (segments s).inits, names ≠ [] → r.Unknown (names.foldl member path))
    ⟨fun h names hne hprefix => h names ((List.mem_inits names _).2 hprefix) hne,
      fun h names hmem hne => h names hne ((List.mem_inits names _).1 hmem)⟩

/-- What a member has for ancestors inside its own name is not known. -/
theorem UnknownBelow.of_mem_ancestors (h : r.UnknownBelow path s) {a : String}
    (ha : a ∈ ancestors s) : r.Unknown (member path a) := by
  rw [← foldl_member_segments]
  exact h _ (segments_ne_nil a) (segments_prefix_of_mem_ancestors ha)

/-- The search for a definition ends at the same ancestor. -/
theorem root?_member (h : r.UnknownBelow path s) : r.root? (member path s) = r.root? path := by
  have hnone : ((ancestors s).map (member path)).find?
      (fun p => r.table.contains (FeatureKind.api.id p)) = none := by
    rw [List.find?_eq_none]
    intro q hq
    obtain ⟨a, ha, rfl⟩ := List.mem_map.1 hq
    rw [(h.of_mem_ancestors ha).undefined]
    exact Bool.false_ne_true
  rw [root?, ancestors_member, List.find?_append, hnone, Option.none_or, root?]

/-- The search for a recorded release ends at the same ancestor. -/
theorem nearest?_member (h : r.UnknownBelow path s) {history : History}
    (hhistory : r.history = some history) :
    history.nearest? (member path s) = history.nearest? path := by
  have hnone : ((ancestors s).map (member path)).findSome? history.get? = none := by
    rw [List.findSome?_eq_none_iff]
    intro q hq
    obtain ⟨a, ha, rfl⟩ := List.mem_map.1 hq
    exact (h.of_mem_ancestors ha).unrecorded history hhistory
  rw [History.nearest?, ancestors_member, List.findSome?_append, hnone, Option.none_or,
    History.nearest?]

theorem dated_member (h : r.UnknownBelow path s) : r.dated (member path s) = r.dated path := by
  funext a
  unfold dated
  cases hhistory : r.history with
  | none => rfl
  | some history =>
    dsimp only
    rw [nearest?_member h hhistory]

/-- A member that is not known is answered for like what it is a member of. -/
theorem query_member (h : r.UnknownBelow path s) :
    r.query (member path s) = (r.query path).mapError (FeatureError.about (member path s)) :=
  query_about (root?_member h) (dated_member h)

/-- If what it is a member of is available, the member is as well, and no less or more. -/
theorem query_member_eq_ok (h : r.UnknownBelow path s) {answer : Option Availability}
    (ha : r.query path = .ok answer) : r.query (member path s) = .ok answer := by
  rw [query_member h, ha]
  rfl

end Resolver

/-! ### Annotations -/

/-- Nothing is new in an availability against itself. -/
theorem Availability.diff_self (a : Availability) : a.diff (some a) = {} := by
  have hadded : ∀ names : NameSet, added names names = none := by
    intro names
    refine if_pos (NameSet.isEmpty_iff.2 fun x hx => ?_)
    obtain ⟨hmem, hnot⟩ := NameSet.mem_diff.1 hx
    exact hnot hmem
  have hchanged {α : Type} [DecidableEq α] (x : α) : changed x x = none := if_pos rfl
  simp only [diff, Option.getD_some, hadded, hchanged, Option.join_none]

/-- **A verdict on a member that is not known** shows it with the availability of its parent and an
empty annotation. -/
theorem Verdict.of_unknown {r : Resolver} {parent : Surroundings} {old : Traits} {name : String}
    {v : Verdict} (hparent : r.query parent.path = .ok (some parent.availability))
    (hunknown : r.UnknownBelow parent.path name) (hnodoc : old.nodoc = false)
    (hv : Verdict.of r (some parent) old name = .ok v) :
    (v.traits old).nodoc = false ∧ (v.traits old).availability = some parent.availability ∧
      (v.traits old).feature = {} := by
  have hquery := Resolver.query_member_eq_ok hunknown hparent
  rcases Verdict.of_cases hv with ⟨rfl, hhidden⟩ | ⟨parent', a, heq, -, ha, rfl⟩
  · have hnone := hhidden parent rfl hnodoc
    rw [hquery] at hnone
    cases hnone
  · cases heq
    rw [hquery] at ha
    cases ha
    exact ⟨hnodoc, rfl, Availability.diff_self _⟩

namespace Resolver

/-- **Members without a definition inherit availability.** A member is answered for like what it is a
member of, but for the path in the error of an ambiguity, if nothing is known of it and of what is
between the two. So wherever a namespace is annotated, such a member has the availability of a
parent that is shown, and no tag of its own. -/
theorem unknown_inherits (r : Resolver) :
    (∀ path s, r.UnknownBelow path s →
      r.query (member path s) = (r.query path).mapError (FeatureError.about (member path s))) ∧
    ∀ ns n : Namespace, ns.annotate r = .ok n →
      List.Forall₂ (fun l l' => ns.Shown r l.above → l.property.nodoc = false →
        r.UnknownBelow (ns.place l.above) l.property.name →
          l'.property.nodoc = false ∧ l'.property.feature = {} ∧ l'.property.feature.tags = [] ∧
            ∃ a, r.query (ns.place l.above) = .ok (some a) ∧ l'.property.availability = some a)
        ns.lineages n.lineages := by
  refine ⟨fun path s h => query_member h, fun ns n h => ?_⟩
  obtain ⟨answer, members, ha, hm, rfl⟩ := Namespace.annotate_eq_ok_iff.1 h
  refine ApiType.forall₂_lineages (fun s above _ => ApiType.Governs r ns above s) ?_
    (Namespace.governs_surroundings ha) (Namespace.annotate_body hm)
  intro s above above' p v type hs hv
  refine ⟨hs.below hv, fun hshown hnodoc hunknown => ?_⟩
  cases s with
  | none => exact absurd (hs.hidden rfl) hshown.not_hidden
  | some parent =>
    obtain ⟨-, hpath, hquery, -⟩ := hs.shown parent rfl
    rw [← hpath] at hunknown hquery ⊢
    obtain ⟨hvisible, havailability, hfeature⟩ :=
      Verdict.of_unknown hquery hunknown hnodoc hv
    refine ⟨hvisible, hfeature, ?_, parent.availability, hquery, havailability⟩
    exact congrArg AvailabilityDiff.tags hfeature

/-- A type with a property. -/
def alarmType : ApiType :=
  .object [.plain "name" (.primitive .string)] none none none

/-- A namespace with this type. -/
def alarms : Namespace where
  name := "alarms"
  members := [.plain "Alarm" alarmType]

/-- Features that know the namespace, and variants that cannot be told apart. -/
def alarmFeatures : Resolver where
  table := ⟨[("api:alarms", [{ dependencies := some ["permission:alarms"] }]),
    ("permission:alarms", [{ channel := some .beta }]),
    ("api:panels", [{ minManifestVersion := some 2 }, { maxManifestVersion := some 3 }])]⟩
  history := some ⟨[("alarms", { firstStable := some 22 })]⟩

/-- The type and its property are available like the namespace and have no tags, and an ambiguity is
told of the member that was asked for. -/
theorem query_alarmFeatures :
    alarmFeatures.UnknownBelow "alarms" "Alarm.name" ∧
    (∃ a, alarmFeatures.query "alarms" = .ok (some a) ∧ a.since = some (.version 22) ∧
      alarmFeatures.query "alarms.Alarm.name" = .ok (some a)) ∧
    alarmFeatures.query "panels" = .error (.ambiguous "api:panels" "panels" 2) ∧
    alarmFeatures.query "panels.open" = .error (.ambiguous "api:panels" "panels.open" 2) ∧
    ∃ n l l', alarms.annotate alarmFeatures = .ok n ∧ n.feature.tags ≠ [] ∧ n.lineages = [l, l'] ∧
      l.property.feature.tags = [] ∧ l'.property.feature.tags = [] := by
  obtain ⟨hmember, hmarked⟩ := unknown_inherits alarmFeatures
  have hunknown : alarmFeatures.UnknownBelow "alarms" "Alarm.name" := by decide +kernel
  have halarms : (alarmFeatures.query "alarms").map (·.map (·.since)) =
      .ok (some (some (.version 22))) := by decide +kernel
  obtain ⟨answer, ha, hdated⟩ := map_eq_ok_iff.1 halarms
  obtain ⟨a, rfl, hsince⟩ := Option.map_eq_some_iff.1 hdated
  have hpanels : alarmFeatures.query "panels" = .error (.ambiguous "api:panels" "panels" 2) := by
    decide +kernel
  refine ⟨hunknown, ⟨a, ha, hsince, ?_⟩, hpanels, ?_, ?_⟩
  · rw [show "alarms.Alarm.name" = member "alarms" "Alarm.name" from rfl, hmember _ _ hunknown, ha]
    rfl
  · rw [show "panels.open" = member "panels" "open" from rfl,
      hmember "panels" "open" (by decide +kernel), hpanels]
    rfl
  · have hrun : (alarms.annotate alarmFeatures).map (fun n => n.feature.tags.isEmpty) =
        .ok false := by
      decide +kernel
    obtain ⟨n, hn, htags⟩ := map_eq_ok_iff.1 hrun
    have hname : alarmFeatures.query "alarms.Alarm" = .ok (some a) := by
      rw [show "alarms.Alarm" = member "alarms" "Alarm" from rfl,
        hmember "alarms" "Alarm" (by decide +kernel), ha]
      rfl
    have hshown : alarms.Shown alarmFeatures [] := ⟨rfl, a, ha⟩
    have hinside : alarms.Shown alarmFeatures alarms.members := ⟨⟨rfl, a, hname⟩, hshown⟩
    have hlineages : alarms.lineages = [⟨.plain "Alarm" alarmType, []⟩,
        ⟨.plain "name" (.primitive .string), alarms.members⟩] := rfl
    have hall := hmarked alarms n hn
    rw [hlineages] at hall
    obtain ⟨l, rest, hfirst, hrest, hl⟩ := List.forall₂_cons_left_iff.1 hall
    obtain ⟨l', others, hsecond, hothers, rfl⟩ := List.forall₂_cons_left_iff.1 hrest
    rw [List.forall₂_nil_left_iff.1 hothers] at hl
    obtain ⟨-, -, hfirst, -⟩ := hfirst hshown rfl (by decide +kernel)
    obtain ⟨-, -, hsecond, -⟩ := hsecond hinside rfl (by decide +kernel)
    refine ⟨n, l, l', hn, fun hnil => ?_, hl, hfirst, hsecond⟩
    rw [hnil] at htags
    cases htags

end Resolver

end ApiTypings
