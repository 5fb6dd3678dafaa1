import ApiTypings.Proofs.Marking
/-!
# Nothing is lost in sparse annotations

A property is annotated only with what is new in its availability against what it is nested in. A
reader of the annotations goes from a property outwards and takes for each field the first
annotation that says something. `Availability.ToldBy` says what is found in this way, field by
field:

* of sets of required names, every name is in some annotation;
* a field that always has a value has the value of the nearest annotation that carries it, and its
  default value if none does;
* a field that may be unset has the value of the nearest annotation that carries it, whenever it is
  set. A field that is unset again is not told, so nothing can be said of it then.

One more annotation keeps this (`Availability.ToldBy.cons`), whatever was set, cleared and set again
before, so it holds along every lineage (`Namespace.annotate_tells`).
-/

namespace ApiTypings

namespace Availability

/-! ### One field -/

section Field

variable {α : Type} [DecidableEq α]

/-- A value is the nearest one told, if the parent's value was. -/
theorem eq_getD_changed {mine parent default : α} {told : Option α}
    (h : parent = told.getD default) : mine = (changed mine parent <|> told).getD default := by
  unfold changed
  split_ifs with heq
  · exact heq.trans h
  · rfl

/-- A value that is set is the nearest one told, if the parent's value was. -/
theorem join_changed_or_eq_some {mine parent told : Option α} {v : α}
    (h : parent = some v → told = some v) (hmine : mine = some v) :
    ((changed mine parent).join <|> told) = some v := by
  unfold changed
  split_ifs with heq
  · exact h (heq.symm.trans hmine)
  · rw [Option.join_some, hmine]
    rfl

end Field

/-- Every name of a set is told, if those of the parent's set were. -/
theorem exists_told_of_mem {field : AvailabilityDiff → Option NameSet} {mine parent : NameSet}
    {diff : AvailabilityDiff} {diffs : List AvailabilityDiff}
    (hdiff : field diff = added mine parent)
    (h : ∀ x ∈ parent, ∃ d ∈ diffs, ∃ new, field d = some new ∧ x ∈ new) :
    ∀ x ∈ mine, ∃ d ∈ diff :: diffs, ∃ new, field d = some new ∧ x ∈ new := by
  intro x hx
  by_cases hparent : x ∈ parent
  · obtain ⟨d, hd, hnew⟩ := h x hparent
    exact ⟨d, List.mem_cons_of_mem _ hd, hnew⟩
  · have hmem : x ∈ mine.diff parent := NameSet.mem_diff.2 ⟨hx, hparent⟩
    refine ⟨diff, List.mem_cons_self .., mine.diff parent, ?_, hmem⟩
    rw [hdiff, added, if_neg]
    intro hempty
    exact NameSet.isEmpty_iff.1 hempty x hmem

/-! ### All fields -/

/-- An availability can be read off annotations, given from the nearest on. -/
structure ToldBy (a : Availability) (diffs : List AvailabilityDiff) : Prop where
  permissions : ∀ x ∈ a.permissions, ∃ d ∈ diffs, ∃ new, d.permissions = some new ∧ x ∈ new
  manifestKeys : ∀ x ∈ a.manifestKeys, ∃ d ∈ diffs, ∃ new, d.manifestKeys = some new ∧ x ∈ new
  channel : a.channel = (diffs.findSome? (·.channel)).getD .stable
  platforms : a.platforms = (diffs.findSome? (·.platforms)).getD .all
  disallowForServiceWorkers :
    a.disallowForServiceWorkers = (diffs.findSome? (·.disallowForServiceWorkers)).getD false
  minManifestVersion : ∀ v, a.minManifestVersion = some v →
    diffs.findSome? (·.minManifestVersion) = some v
  maxManifestVersion : ∀ v, a.maxManifestVersion = some v →
    diffs.findSome? (·.maxManifestVersion) = some v
  location : ∀ v, a.location = some v → diffs.findSome? (·.location) = some v
  since : ∀ v, a.since = some v → diffs.findSome? (·.since) = some v
  deprecatedSince : ∀ v, a.deprecatedSince = some v → diffs.findSome? (·.deprecatedSince) = some v

/-- The default availability is told without any annotation. -/
theorem ToldBy.default : ToldBy {} [] where
  permissions := fun _ hx => absurd hx List.not_mem_nil
  manifestKeys := fun _ hx => absurd hx List.not_mem_nil
  channel := rfl
  platforms := rfl
  disallowForServiceWorkers := rfl
  minManifestVersion := nofun
  maxManifestVersion := nofun
  location := nofun
  since := nofun
  deprecatedSince := nofun

/-- **One more annotation.** If the parent's availability is told, the one annotated against it is
told with the annotation in front. -/
theorem ToldBy.cons {a parent : Availability} {diffs : List AvailabilityDiff}
    (h : parent.ToldBy diffs) : a.ToldBy (a.diff (some parent) :: diffs) where
  permissions := exists_told_of_mem rfl h.permissions
  manifestKeys := exists_told_of_mem rfl h.manifestKeys
  channel := findSome?_cons_eq_or ▸ eq_getD_changed h.channel
  platforms := findSome?_cons_eq_or ▸ eq_getD_changed h.platforms
  disallowForServiceWorkers :=
    findSome?_cons_eq_or ▸ eq_getD_changed h.disallowForServiceWorkers
  minManifestVersion := fun v hv =>
    findSome?_cons_eq_or ▸ join_changed_or_eq_some (h.minManifestVersion v) hv
  maxManifestVersion := fun v hv =>
    findSome?_cons_eq_or ▸ join_changed_or_eq_some (h.maxManifestVersion v) hv
  location := fun v hv => findSome?_cons_eq_or ▸ join_changed_or_eq_some (h.location v) hv
  since := fun v hv => findSome?_cons_eq_or ▸ join_changed_or_eq_some (h.since v) hv
  deprecatedSince := fun v hv =>
    findSome?_cons_eq_or ▸ join_changed_or_eq_some (h.deprecatedSince v) hv

end Availability

/-! ### Along a lineage -/

namespace Namespace

variable {ns n : Namespace} {r : Resolver}

/-- The annotations from a property outwards, that of the namespace being the last. -/
def annotations (ns : Namespace) (chain : List (Property ApiType)) : List AvailabilityDiff :=
  chain.map (·.feature) ++ [ns.feature]

/-- **Sparse annotations lose nothing.** Whenever a namespace is annotated, every property that is
not hidden has an availability that can be read off the annotations from the property outwards. -/
theorem annotate_tells (h : ns.annotate r = .ok n) :
    ∀ l ∈ n.lineages, l.property.nodoc = false →
      ∃ a, l.property.availability = some a ∧ a.ToldBy (n.annotations l.chain) := by
  obtain ⟨answer, members, ha, hm, rfl⟩ := annotate_eq_ok_iff.1 h
  set n := ns.withMembers members (ns.surroundings answer) with hn
  -- What is handed on below nested properties is told by their annotations.
  have hall : List.Forall₂ (fun _ l => l.property.nodoc = false →
      ∃ a, l.property.availability = some a ∧ a.ToldBy (n.annotations l.chain))
      ns.lineages n.lineages := by
    refine ApiType.forall₂_lineages (fun s _ above =>
      ∀ parent, s = some parent → parent.availability.ToldBy (n.annotations above))
      ?_ ?_ (annotate_body hm)
    · intro s _ above p v type hknown hv
      rcases Verdict.of_cases hv with ⟨rfl, -⟩ | ⟨parent, a, rfl, -, -, rfl⟩
      · exact ⟨fun _ hparent => (by cases hparent), fun hnodoc => (by cases hnodoc)⟩
      · have htold := (hknown parent rfl).cons (a := a)
        refine ⟨fun _ hparent => ?_, fun _ => ⟨a, rfl, htold⟩⟩
        cases hparent
        exact htold
    · intro parent hparent
      rw [hn, hparent]
      exact Availability.ToldBy.default.cons
  intro l hl
  obtain ⟨_, -, hl⟩ := exists_left_of_mem hall hl
  exact hl

/-- A type with a property. -/
def typeWithProperty : Namespace where
  name := "a"
  members := [.plain "T" (.object [.plain "p" (.primitive .string)] none none none)]

/-- Features that set a manifest version, clear it on the way, and set it again. -/
def clearedOnTheWay : Resolver where
  table := ⟨[("api:a", [{ minManifestVersion := some 2 }]),
    ("api:a.T", [{ noParent := some true, channel := some .beta }]),
    ("api:a.T.p", [{ noParent := some true, minManifestVersion := some 2 }])]⟩

/-- The manifest version is told again where it is set again. -/
theorem annotate_typeWithProperty : ∃ n, typeWithProperty.annotate clearedOnTheWay = .ok n ∧
    n.lineages.map (fun l =>
        (l.property.nodoc, (n.annotations l.chain).map (·.minManifestVersion))) =
      [(false, [none, some 2]), (false, [some 2, none, some 2])] ∧
    ∀ l ∈ n.lineages, l.property.nodoc = false →
      ∃ a, l.property.availability = some a ∧ a.ToldBy (n.annotations l.chain) := by
  have hrun : (typeWithProperty.annotate clearedOnTheWay).map (fun n => n.lineages.map fun l =>
      (l.property.nodoc, (n.annotations l.chain).map (·.minManifestVersion))) =
        .ok [(false, [none, some 2]), (false, [some 2, none, some 2])] := by
    decide +kernel
  obtain ⟨n, hn, hmarks⟩ := map_eq_ok_iff.1 hrun
  exact ⟨n, hn, hmarks, annotate_tells hn⟩

end Namespace
end ApiTypings
