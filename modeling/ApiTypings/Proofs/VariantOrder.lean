import ApiTypings.Proofs.LoadedTables
import Mathlib.Data.List.Perm.Basic
/-!
# The order of variants does not matter

A table keeps the variants of an id in the order in which they were added. No query can tell that
order: two tables that know the same ids, each with the same variants up to order
(`FeatureTable.SameVariants`), answer every query alike and fail alike
(`Resolver.query_of_sameVariants`). Tables for which the same files were loaded in two orders are
such tables (`FeatureTable.SameVariants.loadAll`).

The order is lost where variants are reduced to one definition (`Definition.merge_perm`): a
preference narrows two lists that differ in their order to two such lists, and the dependencies of
what is merged are sorted. For descendants the first variant counts that is marked as default
parent, so of these there must be no more than one.
-/

namespace ApiTypings

/-! ### Lists that differ in their order only -/

section

variable {α : Type} {xs ys : List α}

/-- Lists that differ in their order only are the same list, unless neither has one element. -/
theorem eq_or_ne_singleton_of_perm (h : xs.Perm ys) :
    xs = ys ∨ (∀ x, xs ≠ [x]) ∧ ∀ y, ys ≠ [y] := by
  by_cases hx : ∃ x, xs = [x]
  · obtain ⟨x, rfl⟩ := hx
    exact .inl (List.perm_singleton.1 h.symm).symm
  · by_cases hy : ∃ y, ys = [y]
    · obtain ⟨y, rfl⟩ := hy
      exact .inl (List.perm_singleton.1 h)
    · exact .inr ⟨not_exists.1 hx, not_exists.1 hy⟩

/-- Where no more than one element is looked for, the order does not matter. -/
theorem find?_eq_of_perm {p : α → Bool} (h : xs.Perm ys) (hone : xs.countP p ≤ 1) :
    xs.find? p = ys.find? p := by
  have hfilter : (xs.filter p).Perm (ys.filter p) := h.filter p
  have hlength : (xs.filter p).length ≤ 1 := List.countP_eq_length_filter (p := p) ▸ hone
  have heq : xs.filter p = ys.filter p := by
    cases hxs : xs.filter p with
    | nil =>
      rw [hxs] at hfilter
      exact hfilter.nil_eq
    | cons x rest =>
      obtain rfl : rest = [] := by
        rw [hxs, List.length_cons] at hlength
        exact List.length_eq_zero_iff.1 (by omega)
      rw [hxs] at hfilter
      exact (List.perm_singleton.1 hfilter.symm).symm
  rw [← List.head?_filter, ← List.head?_filter, heq]

end

namespace Definition

variable {vs vs' : List Definition}

/-! ### Variants that differ in dependencies only -/

theorem allDependencies_perm (h : vs.Perm vs') : allDependencies vs = allDependencies vs' := by
  have hset : NameSet.ofList (vs.flatMap dependencyIds) =
      NameSet.ofList (vs'.flatMap dependencyIds) := by
    refine NameSet.ext_mem fun x => ?_
    rw [NameSet.mem_ofList, NameSet.mem_ofList]
    exact (h.flatMap_right dependencyIds).mem_iff
  exact congrArg NameSet.toList hset

/-- Variants are merged into one if there are any and they agree in all but their dependencies. -/
theorem mergeIdentical?_eq_some_iff {merged : Definition} :
    mergeIdentical? vs = some merged ↔ vs ≠ [] ∧
      ∃ shape, (∀ v ∈ vs, v.withoutDependencies = shape) ∧
        { shape with
          dependencies :=
            if vs.any (·.dependencies.isSome) then some (allDependencies vs) else none } =
          merged := by
  cases vs with
  | nil => simp [mergeIdentical?]
  | cons first rest =>
    rw [mergeIdentical?]
    simp only [List.all_eq_true, decide_eq_true_eq, List.forall_mem_cons]
    by_cases hrest : ∀ v ∈ rest, v.withoutDependencies = first.withoutDependencies
    · rw [if_pos hrest, Option.some.injEq]
      constructor
      · exact fun h => ⟨List.cons_ne_nil _ _, _, ⟨rfl, hrest⟩, h⟩
      · rintro ⟨-, shape, ⟨rfl, -⟩, h⟩
        exact h
    · rw [if_neg hrest]
      constructor
      · intro h
        cases h
      · rintro ⟨-, shape, ⟨rfl, h⟩, -⟩
        exact absurd h hrest

theorem mergeIdentical?_perm (h : vs.Perm vs') : mergeIdentical? vs = mergeIdentical? vs' := by
  refine Option.ext fun merged => ?_
  have hnil : vs ≠ [] ↔ vs' ≠ [] := not_congr ⟨fun hvs => (hvs ▸ h).nil_eq.symm,
    fun hvs' => (hvs' ▸ h).eq_nil⟩
  rw [mergeIdentical?_eq_some_iff, mergeIdentical?_eq_some_iff, hnil, h.any_eq,
    allDependencies_perm h]
  simp only [h.mem_iff]

/-! ### Preferences -/

theorem narrow_perm (prefer : Definition → Bool) (h : vs.Perm vs') :
    (narrow prefer vs).Perm (narrow prefer vs') := by
  unfold narrow
  rw [h.any_eq]
  split
  · exact h.filter prefer
  · exact h

theorem leastRestrictive_right_comm (a b c : Channel) :
    Channel.leastRestrictive (Channel.leastRestrictive a b) c =
      Channel.leastRestrictive (Channel.leastRestrictive a c) b := by
  apply Channel.rank_injective
  simp only [Channel.rank_leastRestrictive]
  omega

theorem preferences_perm (h : vs.Perm vs') : preferences vs = preferences vs' := by
  have hleast : leastChannel vs = leastChannel vs' :=
    (h.map releaseChannel).foldl_eq' (fun a _ b _ c => leastRestrictive_right_comm c a b) _
  rw [preferences, preferences, hleast]

/-- A preference that leaves more than one candidate, or none, leaves them to the next. -/
theorem pick?_of_ne_singleton {prefer : Definition → Bool} (rest : List (Definition → Bool))
    (h : ∀ v, narrow prefer vs ≠ [v]) :
    pick? vs (prefer :: rest) = pick? (narrow prefer vs) rest := by
  rw [pick?]
  split
  · next only honly => exact absurd honly (h only)
  · rfl

theorem pick?_perm (preferred : List (Definition → Bool)) (h : vs.Perm vs') :
    pick? vs preferred = pick? vs' preferred := by
  induction preferred generalizing vs vs' with
  | nil => rw [pick?, pick?, mergeIdentical?_perm h, h.length_eq]
  | cons prefer rest ih =>
    have hnarrow := narrow_perm prefer h
    -- One candidate is taken as it is; the next preference sees any other list up to order only.
    rcases eq_or_ne_singleton_of_perm hnarrow with heq | ⟨hvs, hvs'⟩
    · rw [pick?, pick?, heq]
    · rw [pick?_of_ne_singleton rest hvs, pick?_of_ne_singleton rest hvs', ih hnarrow]

/-! ### Merging -/

/-- Several variants are merged into one if they agree in all but their dependencies, and otherwise
one is picked by preference. -/
theorem merge_of_ne_singleton {id path : String} (hnil : vs ≠ []) (hone : ∀ v, vs ≠ [v]) :
    merge id path vs =
      match mergeIdentical? vs with
      | some merged => .ok merged
      | none =>
        match pick? vs (preferences vs) with
        | (some picked, _) => .ok picked
        | (none, remaining) => .error (.ambiguous id path remaining) := by
  unfold merge
  split
  · exact absurd rfl hnil
  · next only => exact absurd rfl (hone only)
  · rfl

/-- **Variants are merged alike in every order**, or fail alike. -/
theorem merge_perm (id path : String) (h : vs.Perm vs') : merge id path vs = merge id path vs' := by
  rcases eq_or_ne_singleton_of_perm h with rfl | ⟨hvs, hvs'⟩
  · rfl
  · by_cases hnil : vs = []
    · subst hnil
      rw [← h.nil_eq]
    · have hnil' : vs' ≠ [] := fun hvs' => hnil (hvs' ▸ h).eq_nil
      rw [merge_of_ne_singleton hnil hvs, merge_of_ne_singleton hnil' hvs', mergeIdentical?_perm h,
        preferences_perm h, pick?_perm _ h]

end Definition

namespace FeatureTable

/-! ### Tables -/

/-- Two tables know the same ids, each with the same variants up to order. -/
structure SameVariants (t t' : FeatureTable) : Prop where
  contains_eq : ∀ id, t.contains id = t'.contains id
  perm : ∀ id, (t.variants id).Perm (t'.variants id)

/-- No id has two variants that are marked as default parent. -/
def OneDefault (t : FeatureTable) : Prop :=
  ∀ id, (t.variants id).countP (·.isDefaultParent) ≤ 1

variable {t t' : FeatureTable}

theorem SameVariants.refl (t : FeatureTable) : t.SameVariants t where
  contains_eq _ := rfl
  perm _ := .refl _

/-- Definitions may be added in any order. -/
theorem SameVariants.insertAll (h : t.SameVariants t') {ds ds' : List (String × Definition)}
    (hds : ds.Perm ds') : (t.insertAll ds).SameVariants (t'.insertAll ds') where
  contains_eq id := by
    rw [contains_insertAll, contains_insertAll, h.contains_eq, hds.any_eq]
  perm id := by
    rw [variants_insertAll, variants_insertAll]
    exact (h.perm id).append ((hds.filter _).map _)

/-- Only ids to which definitions are added can have two variants that are marked as default
parent. -/
theorem oneDefault_insertAll {ds : List (String × Definition)}
    (h : ∀ d ∈ ds, ((ds.filter (·.1 = d.1)).map (·.2)).countP (·.isDefaultParent) ≤ 1) :
    (insertAll {} ds).OneDefault := by
  intro id
  rw [variants_insertAll]
  show (((ds.filter (·.1 = id)).map (·.2))).countP (·.isDefaultParent) ≤ 1
  by_cases hid : ∃ d ∈ ds, d.1 = id
  · obtain ⟨d, hd, rfl⟩ := hid
    exact h d hd
  · have hnone : ds.filter (·.1 = id) = [] :=
      List.filter_eq_nil_iff.2 fun d hd hdid => hid ⟨d, hd, of_decide_eq_true hdid⟩
    rw [hnone]
    exact Nat.zero_le _

/-- **Files may be loaded in any order**, even if some of them can be loaded in part only. -/
theorem SameVariants.loadAll (h : t.SameVariants t') {files files' : List (FeatureKind × String)}
    (hfiles : files.Perm files') : (t.loadAll files).SameVariants (t'.loadAll files') := by
  obtain ⟨added, -, hload⟩ := exists_loadAll_eq
  rw [hload, hload]
  exact h.insertAll (hfiles.flatMap_right added)

/-! ### Resolving -/

theorem parentVariant_perm (id path : String) {vs vs' : List Definition} (h : vs.Perm vs')
    (hdefault : vs.countP (·.isDefaultParent) ≤ 1) :
    parentVariant id path vs = parentVariant id path vs' := by
  rcases eq_or_ne_singleton_of_perm h with rfl | ⟨hvs, hvs'⟩
  · rfl
  · rw [parentVariant_of_ne_singleton hvs, parentVariant_of_ne_singleton hvs',
      find?_eq_of_perm h hdefault, Definition.merge_perm id path h]

theorem inherited?_of_sameVariants (h : t.SameVariants t') (hdefault : t.OneDefault) (path : String)
    (ids : List String) : t.inherited? path ids = t'.inherited? path ids := by
  induction ids with
  | nil => rfl
  | cons id rest ih =>
    have hperm := h.perm id
    unfold inherited?
    split
    · next hnil =>
      rw [hnil] at hperm
      rw [← hperm.nil_eq]
      exact ih
    · next hne =>
      split
      · next hnil =>
        rw [hnil] at hperm
        exact absurd hperm.eq_nil hne
      · rw [parentVariant_perm id path hperm (hdefault id), ih]

/-- **Every id is resolved alike**, or cannot be resolved for the same reason. -/
theorem resolve?_of_sameVariants (h : t.SameVariants t') (hdefault : t.OneDefault)
    (path id : String) : t.resolve? path id = t'.resolve? path id := by
  have hperm := h.perm id
  unfold resolve?
  split
  · next hnil =>
    rw [hnil] at hperm
    rw [← hperm.nil_eq]
  · next hne =>
    split
    · next hnil =>
      rw [hnil] at hperm
      exact absurd hperm.eq_nil hne
    · rw [Definition.merge_perm id path hperm, inherited?_of_sameVariants h hdefault]

end FeatureTable

/-! ### Queries -/

/-- A closure is gathered from what ids are resolved to. -/
theorem Closure.extend_congr {t t' : FeatureTable} {path : String}
    (h : ∀ id, t.resolve? path id = t'.resolve? path id) (room : Nat) (queue : List String)
    (c : Closure) : extend t path room queue c = extend t' path room queue c := by
  induction room generalizing queue c with
  | zero =>
    unfold extend
    rfl
  | succ room ih =>
    unfold extend
    simp only [h, ih]

namespace Resolver

/-- **The order of variants does not matter.** Two tables that know the same ids, each with the same
variants up to order, and no id with two variants that are marked as default parent, answer the
query of any path alike, with any options and any history: they give the same availability or none,
or fail with the same error. -/
theorem query_of_sameVariants {t t' : FeatureTable} (h : t.SameVariants t')
    (hdefault : t.OneDefault) (options : ResolverOptions) (history : Option History)
    (path : String) : query ⟨t, options, history⟩ path = query ⟨t', options, history⟩ path := by
  have hroot : root? ⟨t, options, history⟩ path = root? ⟨t', options, history⟩ path := by
    simp only [root?, h.contains_eq]
  cases hr : root? ⟨t', options, history⟩ path with
  | none => rw [query_eq_of_root_eq_none (hroot.trans hr), query_eq_of_root_eq_none hr]
  | some root =>
    have hcollect : Closure.collect t path root = Closure.collect t' path root :=
      Closure.extend_congr (FeatureTable.resolve?_of_sameVariants h hdefault path) _ _ _
    rw [query_eq_of_root (hroot.trans hr), query_eq_of_root hr]
    have hgather : ∀ c : Closure, gather ⟨t, options, history⟩ c c.order {} =
        gather ⟨t', options, history⟩ c c.order {} :=
      fun c => gather_eq_of_options_eq (by rfl) c _ _
    simp only [hcollect, hgather]
    rfl

/-- Definitions of windows in two variants, of which one is marked as default parent, and of tabs in
two that differ in what they depend on. -/
def windowFeatures : List (String × Definition) :=
  [("api:windows", { channel := some .dev, defaultParent := some true }),
    ("api:windows", { platforms := some ["mac"] }),
    ("api:windows.open", { dependencies := some ["api:tabs"] }),
    ("api:tabs", { dependencies := some ["permission:tabs"] }),
    ("api:tabs", { dependencies := some ["permission:activeTab"] }),
    ("permission:tabs", {}),
    ("permission:activeTab", {})]

/-- Added in two orders they make two tables, which answer a query alike. -/
theorem query_windowFeatures :
    (FeatureTable.insertAll {} windowFeatures).entries ≠
      (FeatureTable.insertAll {} windowFeatures.reverse).entries ∧
    query ⟨.insertAll {} windowFeatures, {}, none⟩ "windows.open" =
      query ⟨.insertAll {} windowFeatures.reverse, {}, none⟩ "windows.open" ∧
    query ⟨.insertAll {} windowFeatures.reverse, {}, none⟩ "windows.open" = .ok (some
      { channel := .dev
        permissions := .ofList ["activeTab", "tabs"]
        unknownVersion := true }) := by
  have hsame : (FeatureTable.insertAll {} windowFeatures).SameVariants
      (FeatureTable.insertAll {} windowFeatures.reverse) :=
    (FeatureTable.SameVariants.refl {}).insertAll windowFeatures.reverse_perm.symm
  have hdefault : (FeatureTable.insertAll {} windowFeatures).OneDefault :=
    FeatureTable.oneDefault_insertAll (by decide)
  exact ⟨by decide, query_of_sameVariants hsame hdefault {} none "windows.open", by decide +kernel⟩

end Resolver

end ApiTypings
