import ApiTypings.Proofs.Nesting
/-!
# What pruning leaves

After pruning, a property that can be met without crossing the type of further members of an object
is shown: it is not hidden, and it is available at its dotted path. Across such a type everything
stays as it was, whether hidden, available or not (`Namespace.prune_shows_iff`), because neither
walk enters it (`ApiType.index?_annotate`, `ApiType.index?_visible`) while the declarations do.

* `ApiType.Nested` says which properties are met below a type, at which path, and whether the type
  of further members was crossed.
* `ApiType.KeepsIndex` says which types of further members are left by pruning, in terms of the type
  as it was before.
-/

namespace ApiTypings

/-! ### What is met below a type -/

/-- A property with these traits is shown at a path: it is not hidden, and the path is available. -/
def Resolver.Shows (r : Resolver) (path : String) (traits : Traits) : Prop :=
  traits.nodoc = false ∧ ∃ a, r.query path = .ok (some a)

namespace ApiType

/-- Below a type at a path the property `p` is met at `place`. Only properties add to the path. The
type of further members was `crossed` or not. -/
inductive Nested (place : String) (p : Property ApiType) :
    (crossed : Bool) → (path : String) → ApiType → Prop
  | declared {path : String} {t : ApiType} (hp : p ∈ t.declared)
      (hplace : place = member path p.name) :
      Nested place p false path t
  | part {crossed : Bool} {path : String} {t a : ApiType} (ha : a ∈ t.parts)
      (h : Nested place p crossed path a) : Nested place p crossed path t
  | member {crossed : Bool} {path : String} {t : ApiType} {q : Property ApiType}
      (hq : q ∈ t.declared)
      (h : Nested place p crossed (member path q.name) q.type) : Nested place p crossed path t
  | result {crossed : Bool} {path : String} {t : ApiType} {q : Property ApiType}
      (hq : q ∈ t.results)
      (h : Nested place p crossed (member path q.name) q.type) : Nested place p crossed path t
  | index {crossed : Bool} {path : String} {t i : ApiType} (hi : t.index? = some i)
      (h : Nested place p crossed path i) : Nested place p true path t

/-- Pruning a type at a path leaves the type `i` of further members at `place`. Every property above
it is shown, but for results; below a result that is not shown, and in surroundings that are not, no
property is left. -/
inductive KeepsIndex (r : Resolver) (place : String) (i : ApiType) :
    (shown : Bool) → (path : String) → ApiType → Prop
  | index {shown : Bool} {path : String} {t : ApiType} (hi : t.index? = some i)
      (hplace : place = path) :
      KeepsIndex r place i shown path t
  | part {shown : Bool} {path : String} {t a : ApiType} (ha : a ∈ t.parts)
      (h : KeepsIndex r place i shown path a) : KeepsIndex r place i shown path t
  | member {path : String} {t : ApiType} {q : Property ApiType} (hq : q ∈ t.declared)
      (hshows : r.Shows (member path q.name) q.toTraits)
      (h : KeepsIndex r place i true (member path q.name) q.type) : KeepsIndex r place i true path t
  | result {shown shown' : Bool} {path : String} {t : ApiType} {q : Property ApiType}
      (hq : q ∈ t.results)
      (hshown : shown' = true ↔ shown = true ∧ r.Shows (member path q.name) q.toTraits)
      (h : KeepsIndex r place i shown' (member path q.name) q.type) :
      KeepsIndex r place i shown path t

/-! ### Pruning a type -/

/-- Pruning `t` in these surroundings leaves `u`. -/
def Prunes (r : Resolver) (s : Option Surroundings) (t u : ApiType) : Prop :=
  ∃ t', annotate r s t = .ok t' ∧ t'.visible = u

variable {r : Resolver} {s : Option Surroundings} {t u : ApiType}

namespace Prunes

theorem parts (h : Prunes r s t u) : List.Forall₂ (Prunes r s) t.parts u.parts := by
  obtain ⟨t', ht, rfl⟩ := h
  rw [parts_visible, List.forall₂_map_right_iff]
  exact (parts_annotate ht).imp fun a a' ha => ⟨a', ha, rfl⟩

theorem index?_eq (h : Prunes r s t u) : u.index? = t.index? := by
  obtain ⟨t', ht, rfl⟩ := h
  rw [index?_visible, index?_annotate ht]

/-- A property that is left was shown. -/
theorem of_mem_declared (h : Prunes r s t u) {q : Property ApiType} (hq : q ∈ u.declared) :
    ∃ p ∈ t.declared, ∃ parent a, s = some parent ∧ q.name = p.name ∧ q.nodoc = false ∧
      p.nodoc = false ∧ r.query (member parent.path p.name) = .ok (some a) ∧
      Prunes r (some ⟨member parent.path p.name, a, p.deprecated <|> parent.deprecated⟩)
        p.type q.type := by
  obtain ⟨t', ht, rfl⟩ := h
  rw [declared_visible] at hq
  obtain ⟨q', hq', rfl⟩ := List.mem_map.1 hq
  obtain ⟨hq', hshown⟩ := List.mem_filter.1 hq'
  obtain ⟨p, hp, hpq⟩ := exists_left_of_mem (declared_annotate ht) hq'
  obtain ⟨v, type, hv, htype, rfl⟩ := annotateProperty_eq_ok_iff.1 hpq
  rcases Verdict.of_cases hv with ⟨rfl, -⟩ | ⟨parent, a, rfl, hnodoc, ha, rfl⟩
  · -- What the verdict hides is dropped.
    simp [Verdict.traits] at hshown
  · exact ⟨p, hp, parent, a, rfl, rfl, hnodoc, hnodoc, ha, type, htype, rfl⟩

/-- A property that is shown is left. -/
theorem exists_mem_declared {parent : Surroundings} (h : Prunes r (some parent) t u)
    {p : Property ApiType} (hp : p ∈ t.declared)
    (hshows : r.Shows (member parent.path p.name) p.toTraits) :
    ∃ q ∈ u.declared, ∃ a, q.name = p.name ∧
      Prunes r (some ⟨member parent.path p.name, a, p.deprecated <|> parent.deprecated⟩)
        p.type q.type := by
  obtain ⟨t', ht, rfl⟩ := h
  obtain ⟨hnodoc, a, ha⟩ := hshows
  obtain ⟨q', hq', hpq⟩ := exists_right_of_mem (declared_annotate ht) hp
  obtain ⟨v, type, hv, htype, rfl⟩ := annotateProperty_eq_ok_iff.1 hpq
  rcases Verdict.of_cases hv with ⟨-, hhidden⟩ | ⟨parent', a', hparent, -, ha', rfl⟩
  · have hnone := hhidden parent rfl hnodoc
    rw [ha] at hnone
    cases hnone
  · cases hparent
    have hmem := visibleInside_mem_declared hq' hnodoc
    exact ⟨_, hmem, a', rfl, type, htype, rfl⟩

/-- A result is left with what its verdict leaves below it. -/
theorem of_mem_results (h : Prunes r s t u) {q : Property ApiType} (hq : q ∈ u.results) :
    ∃ p ∈ t.results, ∃ v, Verdict.of r s p.toTraits p.name = .ok v ∧ q.name = p.name ∧
      Prunes r (v.below p.toTraits) p.type q.type := by
  obtain ⟨t', ht, rfl⟩ := h
  rw [results_visible] at hq
  obtain ⟨q', hq', rfl⟩ := List.mem_map.1 hq
  obtain ⟨p, hp, hpq⟩ := exists_left_of_mem (results_annotate ht) hq'
  obtain ⟨v, type, hv, htype, rfl⟩ := annotateProperty_eq_ok_iff.1 hpq
  exact ⟨p, hp, v, hv, rfl, type, htype, rfl⟩

theorem exists_mem_results (h : Prunes r s t u) {p : Property ApiType} (hp : p ∈ t.results) :
    ∃ q ∈ u.results, ∃ v, Verdict.of r s p.toTraits p.name = .ok v ∧ q.name = p.name ∧
      Prunes r (v.below p.toTraits) p.type q.type := by
  obtain ⟨t', ht, rfl⟩ := h
  obtain ⟨q', hq', hpq⟩ := exists_right_of_mem (results_annotate ht) hp
  obtain ⟨v, type, hv, htype, rfl⟩ := annotateProperty_eq_ok_iff.1 hpq
  have hmem : visibleInside _ ∈ t'.visible.results := results_visible t' ▸ List.mem_map_of_mem hq'
  exact ⟨_, hmem, v, hv, rfl, type, htype, rfl⟩

end Prunes

/-- Without surroundings no member of an object is left. -/
theorem visible_of_annotate_none {properties : List (Property ApiType)} {index : Option ApiType}
    {templates instanceType : Option String}
    (h : annotate r none t = .ok (.object properties index templates instanceType)) :
    visible (.object properties index templates instanceType) =
      .object [] index templates instanceType := by
  have hnil : Property.visible properties = [] := by
    rw [Property.visible, List.filter_eq_nil_iff]
    intro p hp
    obtain ⟨p₀, -, hp₀⟩ := exists_left_of_mem (declared_annotate h) hp
    obtain ⟨v, type, hv, -, rfl⟩ := annotateProperty_eq_ok_iff.1 hp₀
    rcases Verdict.of_cases hv with ⟨rfl, -⟩ | ⟨parent, _, hparent, -⟩
    · exact Bool.false_ne_true
    · cases hparent
  rw [visible, visibleProperties_eq_map, hnil]
  rfl

/-! ### Surroundings at a path -/

/-- Surroundings are those of a path, and are there if what stands at the path is shown. -/
structure Stands (s : Option Surroundings) (path : String) (shown : Bool) : Prop where
  path_eq : ∀ parent, s = some parent → parent.path = path
  isSome_eq : s.isSome = shown

variable {path place : String} {shown : Bool}

/-- What a verdict leaves below a property stands at its path. -/
theorem Stands.below {name : String} {old : Traits} {v : Verdict} (hs : Stands s path shown)
    (hv : Verdict.of r s old name = .ok v) :
    Stands (v.below old) (member path name) (v.below old).isSome ∧
      ((v.below old).isSome = true ↔ shown = true ∧ r.Shows (member path name) old) := by
  obtain ⟨hpath, rfl⟩ := hs
  rcases Verdict.of_cases hv with ⟨rfl, hhidden⟩ | ⟨parent, a, rfl, hnodoc, ha, rfl⟩
  · refine ⟨⟨fun _ hnone => absurd hnone.symm (Option.some_ne_none _), rfl⟩,
      fun hsome => absurd hsome Bool.false_ne_true, ?_⟩
    rintro ⟨hsome, hnodoc, a, ha⟩
    obtain ⟨parent, rfl⟩ := Option.isSome_iff_exists.1 hsome
    have hnone := hhidden parent rfl hnodoc
    rw [hpath parent rfl, ha] at hnone
    cases hnone
  · obtain rfl := hpath parent rfl
    refine ⟨⟨fun _ hparent => ?_, rfl⟩, fun _ => ⟨rfl, hnodoc, a, ha⟩, fun _ => rfl⟩
    cases hparent
    rfl

theorem Stands.some {parent : Surroundings} : Stands (some parent) parent.path true :=
  ⟨fun _ h => by cases h; rfl, rfl⟩

/-! ### What is met after pruning -/

/-- **What is met without crossing further members is shown.** -/
theorem Prunes.shows_of_nested (h : Prunes r s t u) (hs : Stands s path shown)
    {p : Property ApiType}
    (hm : Nested place p false path u) : r.Shows place p.toTraits := by
  -- On the way to the property, which never crosses.
  generalize hcrossed : false = crossed at hm
  induction hm generalizing s t shown with
  | declared hp hplace =>
    subst hplace
    obtain ⟨q, hq, parent, a, rfl, hname, hnodoc, -, ha, -⟩ := h.of_mem_declared hp
    rw [hs.path_eq parent rfl, ← hname] at ha
    exact ⟨hnodoc, a, ha⟩
  | part ha hm ih =>
    obtain ⟨a', -, ha'⟩ := exists_left_of_mem h.parts ha
    exact ih ha' hs hcrossed
  | member hq hm ih =>
    obtain ⟨q', hq', parent, a, rfl, hname, -, -, -, hbelow⟩ := h.of_mem_declared hq
    rw [hs.path_eq parent rfl, ← hname] at hbelow
    exact ih hbelow Stands.some hcrossed
  | result hq hm ih =>
    obtain ⟨q', hq', v, hv, hname, hbelow⟩ := h.of_mem_results hq
    rw [← hname] at hv
    exact ih hbelow (hs.below hv).1 hcrossed
  | index hi hm ih => cases hcrossed

/-- A type of further members that is left brings back all that is met below it. -/
theorem Prunes.nested_of_keepsIndex (h : Prunes r s t u) (hs : Stands s path shown) {i : ApiType}
    (hk : KeepsIndex r place i shown path t) {place' : String} {p : Property ApiType}
    {crossed : Bool}
    (hm : Nested place' p crossed place i) : Nested place' p true path u := by
  induction hk generalizing s u with
  | index hi hplace =>
    -- Here the type is what it was before, with all that is below it.
    subst hplace
    exact .index (h.index?_eq.trans hi) hm
  | part ha hk ih =>
    obtain ⟨a', ha', hprunes⟩ := exists_right_of_mem h.parts ha
    exact .part ha' (ih hprunes hs)
  | member hq hshows hk ih =>
    obtain ⟨parent, rfl⟩ := Option.isSome_iff_exists.1 hs.isSome_eq
    rw [← hs.path_eq parent rfl] at hshows ih ⊢
    obtain ⟨q', hq', a, hname, hbelow⟩ := h.exists_mem_declared hq hshows
    refine .member hq' ?_
    rw [hname]
    exact ih hbelow Stands.some
  | result hq hshown hk ih =>
    obtain ⟨q', hq', v, hv, hname, hbelow⟩ := h.exists_mem_results hq
    obtain ⟨hstands, hsome⟩ := hs.below hv
    rw [Bool.eq_iff_iff.2 (hsome.trans hshown.symm)] at hstands
    refine .result hq' ?_
    rw [hname]
    exact ih hbelow hstands

/-- What is met across further members is met below a type of further members that is left. -/
theorem Prunes.exists_keepsIndex (h : Prunes r s t u) (hs : Stands s path shown)
    {p : Property ApiType}
    (hm : Nested place p true path u) :
    ∃ place' i crossed, KeepsIndex r place' i shown path t ∧ Nested place p crossed place' i := by
  -- On the way to the property, up to the first crossing.
  generalize hcrossed : true = crossed at hm
  induction hm generalizing s t shown with
  | declared hp hplace => cases hcrossed
  | part ha hm ih =>
    obtain ⟨a', ha', hprunes⟩ := exists_left_of_mem h.parts ha
    obtain ⟨place', i, crossed, hk, hi⟩ := ih hprunes hs hcrossed
    exact ⟨place', i, crossed, .part ha' hk, hi⟩
  | member hq hm ih =>
    obtain ⟨q', hq', parent, a, rfl, hname, -, hnodoc, ha, hbelow⟩ := h.of_mem_declared hq
    rw [hname] at ih
    obtain rfl := hs.path_eq parent rfl
    obtain rfl := hs.isSome_eq
    obtain ⟨place', i, crossed, hk, hi⟩ := ih hbelow Stands.some hcrossed
    exact ⟨place', i, crossed, .member hq' ⟨hnodoc, a, ha⟩ hk, hi⟩
  | result hq hm ih =>
    obtain ⟨q', hq', v, hv, hname, hbelow⟩ := h.of_mem_results hq
    obtain ⟨hstands, hsome⟩ := hs.below hv
    rw [hname] at ih
    obtain ⟨place', i, crossed, hk, hi⟩ := ih hbelow hstands hcrossed
    exact ⟨place', i, crossed, .result hq' hsome hk, hi⟩
  | index hi hm ih => exact ⟨_, _, _, .index (h.index?_eq.symm.trans hi) rfl, hm⟩

end ApiType

namespace Namespace

variable {ns n : Namespace} {r : Resolver}

/-- Pruning a namespace leaves what pruning its members would. -/
theorem exists_prunes_body (h : ns.prune r = .ok n) :
    ∃ answer, r.query ns.name = .ok answer ∧
      ApiType.Prunes r (ns.surroundings answer) ns.body n.body ∧ n.name = ns.name := by
  obtain ⟨annotated, ha, rfl⟩ := map_eq_ok_iff.1 h
  obtain ⟨answer, hanswer, hbody, hnodoc, hname⟩ := body_annotate ha
  refine ⟨answer, hanswer, ⟨annotated.body, hbody, ?_⟩, ?_⟩
  · unfold visible
    split_ifs with hhidden
    · -- A hidden namespace loses its members at once, as all of them are hidden anyway.
      have hnone : ns.surroundings answer = none := by
        rw [hnodoc] at hhidden
        exact Option.isNone_iff_eq_none.1 hhidden
      rw [hnone] at hbody
      exact ApiType.visible_of_annotate_none hbody
    · rfl
  · rw [← hname]
    unfold visible
    split_ifs <;> rfl

/-- Pruning a namespace leaves the type `i` of further members at `place`. -/
def KeepsIndex (r : Resolver) (ns : Namespace) (place : String) (i : ApiType) : Prop :=
  ∃ shown, (shown = true ↔ ns.nodoc = false ∧ ∃ a, r.query ns.name = .ok (some a)) ∧
    ApiType.KeepsIndex r place i shown ns.name ns.body

/-- The surroundings that a namespace gives its members stand at its name. -/
theorem stands_surroundings {answer : Option Availability} (h : r.query ns.name = .ok answer) :
    ApiType.Stands (ns.surroundings answer) ns.name (ns.surroundings answer).isSome ∧
      ((ns.surroundings answer).isSome = true ↔
        ns.nodoc = false ∧ ∃ a, r.query ns.name = .ok (some a)) := by
  unfold surroundings
  rw [h]
  cases ns.nodoc with
  | true => exact ⟨⟨by simp, rfl⟩, by simp⟩
  | false => cases answer <;> exact ⟨⟨by simp, rfl⟩, by simp⟩

/-- **What pruning leaves.** Whenever a namespace is pruned, every property that is met in what is
left is shown, unless the type of further members of an object is crossed. Those that are met across
one are the ones below a type of further members that is left. So everything met is shown if and
only if everything below such a type was shown before. -/
theorem prune_shows_iff (h : ns.prune r = .ok n) :
    (∀ place p, ApiType.Nested place p false n.name n.body → r.Shows place p.toTraits) ∧
    ((∀ crossed place p, ApiType.Nested place p crossed n.name n.body → r.Shows place p.toTraits) ↔
      ∀ place i, ns.KeepsIndex r place i →
        ∀ crossed place' p, ApiType.Nested place' p crossed place i →
          r.Shows place' p.toTraits) := by
  obtain ⟨answer, hanswer, hprunes, hname⟩ := exists_prunes_body h
  obtain ⟨hstands, hsome⟩ := stands_surroundings hanswer
  rw [hname]
  have hdirect :
      ∀ place p, ApiType.Nested place p false ns.name n.body → r.Shows place p.toTraits :=
    fun place p hm => hprunes.shows_of_nested hstands hm
  refine ⟨hdirect, fun hall place i hkeeps crossed place' p hm => ?_,
    fun hkept crossed place p hm => ?_⟩
  · obtain ⟨shown, hshown, hk⟩ := hkeeps
    rw [Bool.eq_iff_iff.2 (hshown.trans hsome.symm)] at hk
    exact hall true place' p (hprunes.nested_of_keepsIndex hstands hk hm)
  · cases crossed with
    | false => exact hdirect place p hm
    | true =>
      obtain ⟨place', i, crossed, hk, hi⟩ := hprunes.exists_keepsIndex hstands hm
      exact hkept place' i ⟨_, hsome, hk⟩ crossed place p hi

/-- A type whose further members have a property each. -/
def keyedSecrets : Namespace where
  name := "a"
  members := [.plain "T"
    (.object [] (some (.object [.plain "secret" (.primitive .string)] none none none))
    none none)]

/-- Features that make the property internal. -/
def internalSecret : Resolver where
  table := ⟨[("api:a", [{}]), ("api:a.T.secret", [{ internal := some true }])]⟩

theorem exists_prune_keyedSecrets : ∃ n, keyedSecrets.prune internalSecret = .ok n := by
  have hok : (keyedSecrets.prune internalSecret).toBool = true := by decide +kernel
  cases hn : keyedSecrets.prune internalSecret with
  | error e =>
    rw [hn] at hok
    cases hok
  | ok n => exact ⟨n, rfl⟩

/-- What is met without crossing the further members is shown. -/
theorem prune_keyedSecrets : ∃ n, keyedSecrets.prune internalSecret = .ok n ∧
    ∀ place p, ApiType.Nested place p false n.name n.body →
      internalSecret.Shows place p.toTraits := by
  obtain ⟨n, hn⟩ := exists_prune_keyedSecrets
  exact ⟨n, hn, (prune_shows_iff hn).1⟩

/-- The property of the further members stays, although it is not available. -/
theorem prune_leaves_secret : ∃ n place p, keyedSecrets.prune internalSecret = .ok n ∧
    ApiType.Nested place p true n.name n.body ∧ ¬internalSecret.Shows place p.toTraits := by
  obtain ⟨n, hn⟩ := exists_prune_keyedSecrets
  obtain ⟨answer, hanswer, hprunes, hname⟩ := exists_prunes_body hn
  have hns : internalSecret.query keyedSecrets.name = .ok (some { unknownVersion := true }) := by
    rfl
  have htype : internalSecret.query "a.T" = .ok (some { unknownVersion := true }) := by rfl
  have hsecret : internalSecret.query "a.T.secret" = .ok none := by rfl
  obtain ⟨hstands, hsome⟩ := stands_surroundings hanswer
  rw [hsome.2 ⟨rfl, _, hns⟩] at hstands
  refine ⟨n, "a.T.secret", .plain "secret" (.primitive .string), hn, ?_, ?_⟩
  · rw [hname]
    have hkeeps :
        ApiType.KeepsIndex internalSecret "a.T" _ true keyedSecrets.name keyedSecrets.body :=
      .member (List.mem_singleton.2 rfl) ⟨rfl, _, htype⟩ (.index rfl rfl)
    exact hprunes.nested_of_keepsIndex hstands hkeeps (.declared (List.mem_singleton.2 rfl) rfl)
  · rintro ⟨-, a, ha⟩
    rw [hsecret] at ha
    cases ha

end Namespace

end ApiTypings
