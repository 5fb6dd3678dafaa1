import ApiTypings.Proofs.Ancestors
import ApiTypings.Proofs.Reachability
import Mathlib.Data.Finset.Max
/-!
# Inherited settings

A definition that leaves a field unset takes it from the definitions above it. What it ends up with
can be said without the order in which the fields are passed down. The definitions above an id form
a chain (`FeatureTable.Chain`): from one to the next one goes to the nearest defined id that it is a
member of, and the chain ends where nothing above is defined, or at a definition that takes nothing
from above. Every field is then as the first definition of the chain that sets it has it
(`Definition.nearest`).

* `FeatureTable.Nearest`: one step up, which passes over all that is not defined.
* `FeatureTable.Selected`: what a complex feature passes down. It need not be what the feature itself
  is resolved to.
* `FeatureTable.inheriting_eq_ok_iff` and `FeatureTable.inheriting_eq_error_iff`: what taking fields
  from above comes to, and how it fails.
* `FeatureTable.resolve?_takes_nearest` is the main result.
-/

namespace ApiTypings

/-! ### The nearest setting -/

namespace Definition

/-- The definition with every field as the nearest definition has it that sets it, from this one on
through those above it. Whether a feature has a parent, and whether it is one for its descendants, is
its own business. -/
def nearest (own : Definition) (above : List Definition) : Definition where
  channel := (own :: above).findSome? channel
  dependencies := (own :: above).findSome? dependencies
  contexts := (own :: above).findSome? contexts
  extensionTypes := (own :: above).findSome? extensionTypes
  platforms := (own :: above).findSome? platforms
  sessionTypes := (own :: above).findSome? sessionTypes
  minManifestVersion := (own :: above).findSome? minManifestVersion
  maxManifestVersion := (own :: above).findSome? maxManifestVersion
  location := (own :: above).findSome? location
  allowlist := (own :: above).findSome? allowlist
  commandLineSwitch := (own :: above).findSome? commandLineSwitch
  matchPatterns := (own :: above).findSome? matchPatterns
  noParent := own.noParent
  defaultParent := own.defaultParent
  internal := (own :: above).findSome? internal
  disallowForServiceWorkers := (own :: above).findSome? disallowForServiceWorkers

/-- With nothing above it a definition stays as it is. -/
theorem nearest_nil (own : Definition) : own.nearest [] = own := by
  simp [nearest, findSome?_cons_eq_or]

/-- Fields are passed down from each definition to the next. -/
theorem nearest_cons (own parent : Definition) (above : List Definition) :
    own.nearest (parent :: above) = own.inheritFrom (parent.nearest above) := by
  simp only [nearest, findSome?_cons_eq_or, inheritFrom]

end Definition

namespace FeatureTable

variable {t : FeatureTable} {path id p : String} {own d : Definition} {e : FeatureError}

/-! ### One step up -/

/-- `p` is the nearest of the defined ids that `id` is a member of, in one step or more. -/
structure Nearest (t : FeatureTable) (id p : String) : Prop where
  above : ∃ s, id = member p s
  defined : t.variants p ≠ []
  longest : ∀ q s, id = member q s → t.variants q ≠ [] → q.length ≤ p.length

/-- The nearest defined id is shorter, so going up comes to an end. -/
theorem nearest_induction {motive : String → Prop}
    (h : ∀ id, (∀ p, t.Nearest id p → motive p) → motive id) (id : String) : motive id := by
  induction hlength : id.length using Nat.strongRecOn generalizing id with
  | _ n ih =>
    refine h id fun p hp => ?_
    obtain ⟨s, rfl⟩ := hp.above
    exact ih p.length (hlength ▸ length_lt_member p s) p rfl

/-- If anything above is defined, something is the nearest. -/
theorem exists_nearest {q s : String} (hq : id = member q s) (hdefined : t.variants q ≠ []) :
    ∃ p, t.Nearest id p := by
  set above := ((strictAncestors id).filter fun a => t.variants a ≠ []).toFinset with habove
  have hmem : ∀ a, a ∈ above ↔ (∃ s, id = member a s) ∧ t.variants a ≠ [] := by
    intro a
    rw [habove, List.mem_toFinset, List.mem_filter, mem_strictAncestors_iff, decide_eq_true_iff]
  -- Ancestors are told apart by their length, so the nearest of them is the longest.
  obtain ⟨p, hp, hlongest⟩ :=
    above.exists_max_image String.length ⟨q, (hmem q).2 ⟨⟨s, hq⟩, hdefined⟩⟩
  obtain ⟨hstrict, hp⟩ := (hmem p).1 hp
  exact ⟨p, hstrict, hp, fun q s hq hdefined => hlongest q ((hmem q).2 ⟨⟨s, hq⟩, hdefined⟩)⟩

/-- What is not defined is passed over. -/
theorem inherited?_append {ids rest : List String} (h : ∀ q ∈ ids, t.variants q = []) :
    t.inherited? path (ids ++ rest) = t.inherited? path rest := by
  induction ids with
  | nil => rfl
  | cons q ids ih =>
    obtain ⟨hq, hids⟩ := List.forall_mem_cons.1 h
    rw [List.cons_append, inherited?, hq]
    exact ih hids

/-- Looking above an id starts at the nearest defined one. -/
theorem Nearest.inherited?_eq (h : t.Nearest id p) :
    t.inherited? path (strictAncestors id) = t.inherited? path (p :: strictAncestors p) := by
  obtain ⟨s, rfl⟩ := h.above
  rw [strictAncestors_member]
  refine inherited?_append fun q hq => ?_
  obtain ⟨a, ha, rfl⟩ := List.mem_map.1 hq
  obtain ⟨s', rfl⟩ := mem_strictAncestors_iff.1 ha
  -- It would be defined and longer.
  by_contra hdefined
  have hle := h.longest _ s' (member_member p a s').symm hdefined
  have hlt := length_lt_member p a
  omega

/-- If nothing above is defined, nothing is inherited. -/
theorem inherited?_eq_none (h : ∀ p, ¬t.Nearest id p) :
    t.inherited? path (strictAncestors id) = .ok none := by
  have hundefined : ∀ q ∈ strictAncestors id, t.variants q = [] := by
    intro q hq
    obtain ⟨s, hs⟩ := mem_strictAncestors_iff.1 hq
    by_contra hdefined
    obtain ⟨p, hp⟩ := exists_nearest hs hdefined
    exact h p hp
  rw [← List.append_nil (strictAncestors id), inherited?_append hundefined]
  rfl

/-! ### What is passed down -/

/-- The id has several variants, and none of them is marked for its descendants. -/
structure NeedsMerging (t : FeatureTable) (p : String) : Prop where
  several : 2 ≤ (t.variants p).length
  unmarked : ∀ v ∈ t.variants p, v.isDefaultParent = false

/-- `d` is what `p` passes down: its only variant, or else the first of its variants that is marked
as default parent, or else what its variants are merged to. -/
inductive Selected (t : FeatureTable) (path p : String) (d : Definition) : Prop
  | only (h : t.variants p = [d])
  | marked (hseveral : 2 ≤ (t.variants p).length)
      (h : (t.variants p).find? (·.isDefaultParent) = some d)
  | merged (hneeds : t.NeedsMerging p) (h : Definition.merge p path (t.variants p) = .ok d)

/-- A defined id has one variant, several of which one is marked, or several that need merging. -/
theorem variants_cases (h : t.variants p ≠ []) :
    (∃ v, t.variants p = [v]) ∨
    (2 ≤ (t.variants p).length ∧ ∃ marked, (t.variants p).find? (·.isDefaultParent) = some marked) ∨
    t.NeedsMerging p := by
  have hpos : 0 < (t.variants p).length := List.length_pos_of_ne_nil h
  by_cases hone : (t.variants p).length = 1
  · exact .inl (List.length_eq_one_iff.1 hone)
  · have hseveral : 2 ≤ (t.variants p).length := by omega
    cases hmarked : (t.variants p).find? (·.isDefaultParent) with
    | some marked => exact .inr (.inl ⟨hseveral, marked, rfl⟩)
    | none =>
      refine .inr (.inr ⟨hseveral, fun v hv => ?_⟩)
      simpa using List.find?_eq_none.1 hmarked v hv

theorem NeedsMerging.parentVariant_eq (h : t.NeedsMerging p) :
    parentVariant p path (t.variants p) = Definition.merge p path (t.variants p) := by
  have hnone : (t.variants p).find? (·.isDefaultParent) = none :=
    List.find?_eq_none.2 fun v hv => by rw [h.unmarked v hv]; exact Bool.false_ne_true
  rw [parentVariant_of_ne_singleton (ne_singleton_of_two_le h.several), hnone]

theorem parentVariant_of_marked (hseveral : 2 ≤ (t.variants p).length)
    (h : (t.variants p).find? (·.isDefaultParent) = some d) :
    parentVariant p path (t.variants p) = .ok d := by
  rw [parentVariant_of_ne_singleton (ne_singleton_of_two_le hseveral), h]

/-- What a defined id passes down is what is selected from its variants. -/
theorem parentVariant_eq_ok_iff (h : t.variants p ≠ []) :
    parentVariant p path (t.variants p) = .ok d ↔ t.Selected path p d := by
  constructor
  · intro hd
    rcases variants_cases h with ⟨v, hv⟩ | ⟨hseveral, marked, hmarked⟩ | hneeds
    · rw [hv] at hd
      cases hd
      exact .only hv
    · rw [parentVariant_of_marked hseveral hmarked] at hd
      cases hd
      exact .marked hseveral hmarked
    · rw [hneeds.parentVariant_eq] at hd
      exact .merged hneeds hd
  · rintro (hone | ⟨hseveral, hmarked⟩ | ⟨hneeds, hd⟩)
    · rw [hone]
      rfl
    · exact parentVariant_of_marked hseveral hmarked
    · rw [hneeds.parentVariant_eq, hd]

/-- Passing down fails exactly where variants have to be merged and cannot be. -/
theorem parentVariant_eq_error_iff (h : t.variants p ≠ []) :
    parentVariant p path (t.variants p) = .error e ↔
      t.NeedsMerging p ∧ Definition.merge p path (t.variants p) = .error e := by
  constructor
  · intro he
    rcases variants_cases h with ⟨v, hv⟩ | ⟨hseveral, marked, hmarked⟩ | hneeds
    · rw [hv] at he
      cases he
    · rw [parentVariant_of_marked hseveral hmarked] at he
      cases he
    · exact ⟨hneeds, hneeds.parentVariant_eq ▸ he⟩
  · rintro ⟨hneeds, he⟩
    rw [hneeds.parentVariant_eq, he]

/-! ### The chain above a definition -/

/-- `above` are the definitions that an id with the definition `own` takes its unset fields from,
nearest first. -/
inductive Chain (t : FeatureTable) (path : String) :
    (id : String) → (own : Definition) → (above : List Definition) → Prop
  /-- A definition can take nothing from above. -/
  | closed {id : String} {own : Definition} (h : own.isNoParent = true) : Chain t path id own []
  /-- Nothing above is defined. -/
  | top {id : String} {own : Definition} (h : ∀ p, ¬t.Nearest id p) : Chain t path id own []
  | up {id p : String} {own parent : Definition} {above : List Definition}
      (hopen : own.isNoParent = false) (hp : t.Nearest id p) (hparent : t.Selected path p parent)
      (h : Chain t path p parent above) : Chain t path id own (parent :: above)

/-- `p` is met in the chain above an id with the definition `own`, whether or not anything can be
selected from its variants. -/
inductive Meets (t : FeatureTable) (path : String) :
    (id : String) → (own : Definition) → (p : String) → Prop
  | next {id p : String} {own : Definition} (hopen : own.isNoParent = false)
      (hp : t.Nearest id p) : Meets t path id own p
  | up {id p q : String} {own parent : Definition} (hopen : own.isNoParent = false)
      (hp : t.Nearest id p) (hparent : t.Selected path p parent) (h : Meets t path p parent q) :
      Meets t path id own q

/-- The definition of an id with its unset fields taken from above. -/
def inheriting (t : FeatureTable) (path id : String) (own : Definition) :
    Except FeatureError Definition :=
  if own.isNoParent then .ok own
  else (t.inherited? path (strictAncestors id)).map fun parent => parent.elim own own.inheritFrom

/-- The last steps of resolving: a definition is taken as it is, or with its unset fields taken from
above. -/
theorem map_some_inheriting {f : Option Definition → Except FeatureError (Option Definition)}
    (hnone : f none = .ok (some own))
    (hsome : ∀ parent, f (some parent) = .ok (some (own.inheritFrom parent))) :
    (if own.isNoParent then .ok (some own) else t.inherited? path (strictAncestors id) >>= f) =
      (t.inheriting path id own).map some := by
  unfold inheriting
  cases own.isNoParent with
  | true => rfl
  | false =>
    cases t.inherited? path (strictAncestors id) with
    | error e => rfl
    | ok above =>
      cases above with
      | none => exact hnone
      | some parent => exact hsome parent

/-- The first defined id of a list of ancestors passes down its own fields and those that it takes
from above. -/
theorem inherited?_cons (h : t.variants p ≠ []) :
    t.inherited? path (p :: strictAncestors p) =
      parentVariant p path (t.variants p) >>= fun parent =>
        (t.inheriting path p parent).map some := by
  rw [inherited?]
  split
  · next hnil => exact absurd hnil h
  · exact bind_congr fun parent => map_some_inheriting rfl fun _ => rfl

/-- An id is resolved by merging its variants and taking unset fields from above. -/
theorem resolve?_eq (h : t.variants id ≠ []) :
    t.resolve? path id =
      Definition.merge id path (t.variants id) >>= fun own =>
        (t.inheriting path id own).map some := by
  rw [resolve?]
  split
  · next hnil => exact absurd hnil h
  · exact bind_congr fun own => map_some_inheriting rfl fun _ => rfl

/-- A definition may take nothing from above. -/
theorem inheriting_of_closed (h : own.isNoParent = true) : t.inheriting path id own = .ok own := by
  rw [inheriting, if_pos h]

/-- There may be nothing to take from. -/
theorem inheriting_of_top (h : ∀ p, ¬t.Nearest id p) : t.inheriting path id own = .ok own := by
  rw [inheriting, inherited?_eq_none h]
  exact ite_self _

/-- A definition takes its unset fields from what the nearest defined id above passes down, which has
taken its own from above. -/
theorem inheriting_of_nearest (hopen : own.isNoParent = false) (hp : t.Nearest id p) :
    t.inheriting path id own =
      parentVariant p path (t.variants p) >>= fun parent =>
        (t.inheriting path p parent).map own.inheritFrom := by
  rw [inheriting, hopen, hp.inherited?_eq, inherited?_cons hp.defined, if_neg Bool.false_ne_true]
  cases parentVariant p path (t.variants p) with
  | error e => rfl
  | ok parent =>
    have hsome : ∀ x : Except FeatureError Definition,
        (x.map some).map (fun parent => parent.elim own own.inheritFrom) =
          x.map own.inheritFrom := by
      intro x
      cases x <;> rfl
    exact hsome _

/-- **What a definition takes from above** is the nearest setting of every field. -/
theorem inheriting_eq_ok_iff :
    t.inheriting path id own = .ok d ↔
      ∃ above, t.Chain path id own above ∧ d = own.nearest above := by
  constructor
  · -- Up the chain: every step leads to a shorter id.
    intro hd
    induction id using nearest_induction (t := t) generalizing own d with
    | h id ih =>
      by_cases hclosed : own.isNoParent = true
      · rw [inheriting_of_closed hclosed] at hd
        cases hd
        exact ⟨[], .closed hclosed, own.nearest_nil.symm⟩
      · have hopen : own.isNoParent = false := Bool.not_eq_true _ ▸ hclosed
        by_cases htop : ∃ p, t.Nearest id p
        · obtain ⟨p, hp⟩ := htop
          rw [inheriting_of_nearest hopen hp] at hd
          obtain ⟨parent, hparent, hd⟩ := bind_eq_ok_iff.1 hd
          obtain ⟨d', hd', rfl⟩ := map_eq_ok_iff.1 hd
          obtain ⟨above, hchain, rfl⟩ := ih p hp hd'
          have hselected := (parentVariant_eq_ok_iff hp.defined).1 hparent
          exact ⟨parent :: above, .up hopen hp hselected hchain, (own.nearest_cons _ _).symm⟩
        · rw [inheriting_of_top (not_exists.1 htop)] at hd
          cases hd
          exact ⟨[], .top (not_exists.1 htop), own.nearest_nil.symm⟩
  · rintro ⟨above, hchain, rfl⟩
    induction hchain with
    | closed hclosed => rw [inheriting_of_closed hclosed, Definition.nearest_nil]
    | top htop => rw [inheriting_of_top htop, Definition.nearest_nil]
    | up hopen hp hparent _ ih =>
      rw [inheriting_of_nearest hopen hp, (parentVariant_eq_ok_iff hp.defined).2 hparent,
        Definition.nearest_cons]
      exact map_eq_ok_iff.2 ⟨_, ih, rfl⟩

/-- **Taking from above fails** exactly if variants that are met there and have to be merged
cannot be. -/
theorem inheriting_eq_error_iff :
    t.inheriting path id own = .error e ↔
      ∃ p, t.Meets path id own p ∧ t.NeedsMerging p ∧
        Definition.merge p path (t.variants p) = .error e := by
  constructor
  · intro he
    induction id using nearest_induction (t := t) generalizing own with
    | h id ih =>
      by_cases hclosed : own.isNoParent = true
      · rw [inheriting_of_closed hclosed] at he
        cases he
      · have hopen : own.isNoParent = false := Bool.not_eq_true _ ▸ hclosed
        by_cases htop : ∃ p, t.Nearest id p
        · obtain ⟨p, hp⟩ := htop
          rw [inheriting_of_nearest hopen hp] at he
          rcases bind_eq_error_iff.1 he with he | ⟨parent, hparent, he⟩
          · exact ⟨p, .next hopen hp, (parentVariant_eq_error_iff hp.defined).1 he⟩
          · obtain ⟨q, hq, hmerge⟩ := ih p hp (map_eq_error_iff.1 he)
            have hselected := (parentVariant_eq_ok_iff hp.defined).1 hparent
            exact ⟨q, .up hopen hp hselected hq, hmerge⟩
        · rw [inheriting_of_top (not_exists.1 htop)] at he
          cases he
  · rintro ⟨q, hq, hmerge⟩
    induction hq with
    | next hopen hp =>
      rw [inheriting_of_nearest hopen hp, (parentVariant_eq_error_iff hp.defined).2 hmerge]
      rfl
    | up hopen hp hparent _ ih =>
      rw [inheriting_of_nearest hopen hp, (parentVariant_eq_ok_iff hp.defined).2 hparent]
      exact map_eq_error_iff.2 (ih hmerge)

/-! ### Main result -/

/-- The variants of `p` have to be merged to resolve `id`: they are its own, or they are met in the
chain above what its own are merged to and need merging. -/
inductive MergedFor (t : FeatureTable) (path id : String) : String → Prop
  | own : MergedFor t path id id
  | above {p : String} {own : Definition}
      (hown : Definition.merge id path (t.variants id) = .ok own) (hp : t.Meets path id own p)
      (hneeds : t.NeedsMerging p) : MergedFor t path id p

/-- **Inheritance takes the nearest setting.** A defined id is resolved to what its variants are
merged to, with every field as the nearest definition in the chain from there on has it that sets
it. It can only fail to be resolved by an ambiguity, and does so exactly if its own variants are
ambiguous, or variants that are met in the chain and need merging. -/
theorem resolve?_takes_nearest (path : String) (h : t.variants id ≠ []) :
    (∀ d, t.resolve? path id = .ok (some d) ↔
      ∃ own above, Definition.merge id path (t.variants id) = .ok own ∧
        t.Chain path id own above ∧ d = own.nearest above) ∧
    t.resolve? path id ≠ .ok none ∧
    ∀ e, t.resolve? path id = .error e ↔
      ∃ p n, t.MergedFor path id p ∧ e = .ambiguous p path n ∧
        Definition.merge p path (t.variants p) = .error (.ambiguous p path n) := by
  rw [resolve?_eq h]
  refine ⟨fun d => ?_, fun hnone => ?_, fun e => ?_⟩
  · simp only [bind_eq_ok_iff, map_eq_ok_iff, Option.some.injEq, exists_eq_right,
      inheriting_eq_ok_iff]
    constructor
    · rintro ⟨own, hown, above, hchain, rfl⟩
      exact ⟨own, above, hown, hchain, rfl⟩
    · rintro ⟨own, above, hown, hchain, rfl⟩
      exact ⟨own, hown, above, hchain, rfl⟩
  · obtain ⟨own, -, hown⟩ := bind_eq_ok_iff.1 hnone
    obtain ⟨d, -, hd⟩ := map_eq_ok_iff.1 hown
    cases hd
  · simp only [bind_eq_error_iff, map_eq_error_iff, inheriting_eq_error_iff]
    constructor
    · rintro (he | ⟨own, hown, p, hp, hneeds, he⟩)
      · obtain ⟨n, rfl⟩ := Definition.merge_error h he
        exact ⟨id, n, .own, rfl, he⟩
      · have hdefined : t.variants p ≠ [] := by
          have hseveral := hneeds.several
          intro hnil
          rw [hnil, List.length_nil] at hseveral
          omega
        obtain ⟨n, rfl⟩ := Definition.merge_error hdefined he
        exact ⟨p, n, .above hown hp hneeds, rfl, he⟩
    · rintro ⟨p, n, hmerged, rfl, he⟩
      cases hmerged with
      | own => exact .inl he
      | above hown hp hneeds => exact .inr ⟨_, hown, p, hp, hneeds, he⟩

/-- A feature whose nearest ancestor is not defined. Above that there is one with a marked variant
that takes nothing from above, and there are variants that cannot be told apart. -/
def webFeatures : FeatureTable where
  entries := [("api:web", [{ channel := some .dev, platforms := some ["linux"] }]),
    ("api:web.tabs", [{ location := some "policy" },
      { defaultParent := some true, noParent := some true, contexts := some (.list ["popup"]),
        minManifestVersion := some 2 }]),
    ("api:web.tabs.Tab.id", [{ minManifestVersion := some 3 }]),
    ("api:web.panels", [{ minManifestVersion := some 2 }, { maxManifestVersion := some 3 }]),
    ("api:web.panels.open", [{ channel := some .beta }])]

/-- The first sets its manifest version itself and takes the contexts from the marked variant, and no
channel from further above. The last meets the variants that cannot be told apart. -/
theorem resolve?_webFeatures :
    webFeatures.variants "api:web.tabs.Tab.id" ≠ [] ∧
    webFeatures.variants "api:web.panels.open" ≠ [] ∧
    webFeatures.resolve? "web.tabs.Tab.id" "api:web.tabs.Tab.id" =
      .ok (some { minManifestVersion := some 3, contexts := some (.list ["popup"]) }) ∧
    (∃ own above, Definition.merge "api:web.tabs.Tab.id" "web.tabs.Tab.id"
        (webFeatures.variants "api:web.tabs.Tab.id") = .ok own ∧
      webFeatures.Chain "web.tabs.Tab.id" "api:web.tabs.Tab.id" own above ∧
      { minManifestVersion := some 3, contexts := some (.list ["popup"]) } = own.nearest above) ∧
    (∃ p n, webFeatures.MergedFor "web.panels.open" "api:web.panels.open" p ∧
      FeatureError.ambiguous "api:web.panels" "web.panels.open" 2 = .ambiguous p "web.panels.open" n ∧
      Definition.merge p "web.panels.open" (webFeatures.variants p) =
        .error (.ambiguous p "web.panels.open" n)) := by
  have hid : webFeatures.variants "api:web.tabs.Tab.id" ≠ [] := by decide
  have hopen : webFeatures.variants "api:web.panels.open" ≠ [] := by decide
  have hresolved : webFeatures.resolve? "web.tabs.Tab.id" "api:web.tabs.Tab.id" =
      .ok (some { minManifestVersion := some 3, contexts := some (.list ["popup"]) }) := by
    decide +kernel
  have hambiguous : webFeatures.resolve? "web.panels.open" "api:web.panels.open" =
      .error (.ambiguous "api:web.panels" "web.panels.open" 2) := by
    decide +kernel
  exact ⟨hid, hopen, hresolved, ((resolve?_takes_nearest "web.tabs.Tab.id" hid).1 _).1 hresolved,
    ((resolve?_takes_nearest "web.panels.open" hopen).2.2 _).1 hambiguous⟩

end FeatureTable

end ApiTypings
