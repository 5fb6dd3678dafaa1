import ApiTypings.Proofs.VariantOrder
/-!
# Merging narrows the variants

What the variants of a complex feature are merged to can be said without the steps in which it is
found. Of the variants those are left that are on the least restrictive channel, of these those that
are open to ordinary extensions, and of these those without an install location, where what nobody
meets is not asked for (`Definition.finalists`). If one is left, it is the answer; if several are
left that agree in all but their dependencies, the answer unites them; and otherwise the feature is
ambiguous.

* `Definition.leastChannel_le` and `Definition.exists_leastChannel`: the least channel is the
  minimum, and some variant is on it.
* `Definition.merge_eq_settle`: stopping as soon as one candidate is left, and merging variants that
  agree before anything is narrowed, are shortcuts. They lead to what the whole way leads to.
* `Definition.merge_narrows` is the main result.
-/

namespace ApiTypings

namespace Definition

variable {vs : List Definition}

/-! ### The least channel -/

/-- The least restrictive of several channels is one of them, or the one to start from, and no other
is less restrictive. -/
theorem foldl_leastRestrictive_spec (start : Channel) (cs : List Channel) :
    (cs.foldl Channel.leastRestrictive start = start ∨
      cs.foldl Channel.leastRestrictive start ∈ cs) ∧
    (cs.foldl Channel.leastRestrictive start).rank ≤ start.rank ∧
      ∀ c ∈ cs, (cs.foldl Channel.leastRestrictive start).rank ≤ c.rank := by
  induction cs generalizing start with
  | nil => simp
  | cons c cs ih =>
    obtain ⟨hmem, hstart, hall⟩ := ih (Channel.leastRestrictive start c)
    have hrank := Channel.rank_leastRestrictive start c
    rw [List.foldl_cons]
    refine ⟨?_, by omega, ?_⟩
    · rcases hmem with heq | hmem
      · rw [heq]
        unfold Channel.leastRestrictive
        split
        · exact .inl rfl
        · exact .inr (List.mem_cons_self ..)
      · exact .inr (List.mem_cons_of_mem _ hmem)
    · intro c' hc'
      rcases List.mem_cons.1 hc' with rfl | hc'
      · omega
      · exact hall c' hc'

/-- No variant is on a less restrictive channel. -/
theorem leastChannel_le {v : Definition} (hv : v ∈ vs) : leastChannel vs ≤ v.releaseChannel := by
  obtain ⟨-, -, hall⟩ := foldl_leastRestrictive_spec .trunk (vs.map releaseChannel)
  exact hall _ (List.mem_map_of_mem hv)

/-- Some variant is on the least channel. -/
theorem exists_leastChannel (h : vs ≠ []) : ∃ v ∈ vs, v.releaseChannel = leastChannel vs := by
  obtain ⟨hmem, -, -⟩ := foldl_leastRestrictive_spec .trunk (vs.map releaseChannel)
  rcases hmem with htrunk | hmem
  · -- No channel is more restrictive than the one to start from, so all variants are on it.
    obtain ⟨v, hv⟩ := List.exists_mem_of_ne_nil vs h
    have hle : (leastChannel vs).rank ≤ v.releaseChannel.rank := leastChannel_le hv
    have hleast : leastChannel vs = .trunk := htrunk
    refine ⟨v, hv, ?_⟩
    apply Channel.rank_injective
    rw [hleast] at hle ⊢
    cases hchannel : v.releaseChannel <;> simp_all [Channel.rank]
  · exact List.mem_map.1 hmem

/-! ### What is left -/

/-- The variants on the least restrictive channel that any of them is on. -/
def onLeastChannel (vs : List Definition) : List Definition :=
  vs.filter fun v => ∀ w ∈ vs, v.releaseChannel ≤ w.releaseChannel

/-- The variants that are left: those on the least restrictive channel, of these those that are open
to ordinary extensions, and of these those without an install location. The last two are asked for
only if some variant that is left so far meets them. -/
def finalists (vs : List Definition) : List Definition :=
  narrow (·.location.isNone) (narrow allowsExtension (onLeastChannel vs))

/-- All of these agree in all but their dependencies. -/
def Agree (vs : List Definition) : Prop :=
  ∀ v ∈ vs, ∀ w ∈ vs, v.withoutDependencies = w.withoutDependencies

/-- Preferring the least channel leaves the variants on it. -/
theorem narrow_leastChannel (h : vs ≠ []) :
    narrow (·.releaseChannel = leastChannel vs) vs = onLeastChannel vs := by
  obtain ⟨least, hleast, hchannel⟩ := exists_leastChannel h
  have hany : vs.any (·.releaseChannel = leastChannel vs) = true :=
    List.any_eq_true.2 ⟨least, hleast, decide_eq_true hchannel⟩
  unfold narrow onLeastChannel
  rw [if_pos hany]
  refine List.filter_congr fun v hv => decide_eq_decide.2 ?_
  constructor
  · intro hv' w hw
    rw [hv']
    exact leastChannel_le hw
  · intro hall
    have hle : v.releaseChannel.rank ≤ (leastChannel vs).rank := hchannel ▸ hall least hleast
    have hge : (leastChannel vs).rank ≤ v.releaseChannel.rank := leastChannel_le hv
    exact Channel.rank_injective (by omega)

theorem narrow_ne_nil (prefer : Definition → Bool) (h : vs ≠ []) : narrow prefer vs ≠ [] := by
  unfold narrow
  split
  · next hany =>
    obtain ⟨v, hv, hprefer⟩ := List.any_eq_true.1 hany
    exact List.ne_nil_of_mem (List.mem_filter.2 ⟨hv, hprefer⟩)
  · exact h

/-- Something is left. -/
theorem finalists_ne_nil (h : vs ≠ []) : finalists vs ≠ [] := by
  unfold finalists
  rw [← narrow_leastChannel h]
  exact narrow_ne_nil _ (narrow_ne_nil _ (narrow_ne_nil _ h))

/-- A preference does not separate variants that all meet it or all do not. -/
theorem narrow_eq_self {prefer : Definition → Bool} (h : ∀ v ∈ vs, ∀ w ∈ vs, prefer v = prefer w) :
    narrow prefer vs = vs := by
  unfold narrow
  split
  · next hany =>
    obtain ⟨w, hw, hprefer⟩ := List.any_eq_true.1 hany
    exact List.filter_eq_self.2 fun v hv => (h v hv w hw).trans hprefer
  · rfl

/-- What is not seen of the dependencies is the same for variants that agree. -/
theorem Agree.map_eq {α : Type} {f : Definition → α} (h : Agree vs)
    (hf : ∀ v, f v.withoutDependencies = f v) : ∀ v ∈ vs, ∀ w ∈ vs, f v = f w := by
  intro v hv w hw
  rw [← hf v, ← hf w, h v hv w hw]

/-- No preference separates variants that agree. -/
theorem Agree.finalists_eq (h : Agree vs) : finalists vs = vs := by
  have hchannel : onLeastChannel vs = vs := by
    refine List.filter_eq_self.2 fun v hv => decide_eq_true fun w hw => ?_
    rw [h.map_eq (f := releaseChannel) (fun _ => rfl) v hv w hw]
    exact Nat.le_refl _
  unfold finalists
  rw [hchannel, narrow_eq_self (h.map_eq fun _ => rfl), narrow_eq_self (h.map_eq fun _ => rfl)]

/-! ### Shortcuts -/

/-- Variants are merged as identical ones if they agree. -/
theorem exists_mergeIdentical?_iff (h : vs ≠ []) :
    (∃ merged, mergeIdentical? vs = some merged) ↔ Agree vs := by
  simp only [mergeIdentical?_eq_some_iff]
  constructor
  · rintro ⟨merged, -, shape, hshape, -⟩ v hv w hw
    rw [hshape v hv, hshape w hw]
  · intro hagree
    obtain ⟨v, hv⟩ := List.exists_mem_of_ne_nil vs h
    exact ⟨_, h, v.withoutDependencies, fun w hw => hagree w hw v hv, rfl⟩

/-- The answer if these are left. -/
def settle (id path : String) (left : List Definition) : Except FeatureError Definition :=
  match left with
  | [only] => .ok only
  | left =>
    match mergeIdentical? left with
    | some merged => .ok merged
    | none => .error (.ambiguous id path left.length)

theorem settle_of_ne_singleton {id path : String} (hone : ∀ v, vs ≠ [v]) :
    settle id path vs =
      match mergeIdentical? vs with
      | some merged => .ok merged
      | none => .error (.ambiguous id path vs.length) := by
  unfold settle
  split
  · next only => exact absurd rfl (hone only)
  · rfl

/-- One candidate meets every preference, as far as it is asked for. -/
theorem narrow_singleton (prefer : Definition → Bool) (v : Definition) :
    narrow prefer [v] = [v] := by
  apply narrow_eq_self
  simp

/-- **Stopping early changes nothing.** The preference that leaves one candidate decides, since no
later one could take it away. -/
theorem pick?_cases (preferred : List (Definition → Bool)) (hone : ∀ v, vs ≠ [v]) :
    (∃ v, preferred.foldl (fun left prefer => narrow prefer left) vs = [v] ∧
      pick? vs preferred = (some v, 1)) ∨
    ∃ left, preferred.foldl (fun left prefer => narrow prefer left) vs = left ∧
      (∀ v, left ≠ [v]) ∧ pick? vs preferred = (mergeIdentical? left, left.length) := by
  induction preferred generalizing vs with
  | nil => exact .inr ⟨vs, rfl, hone, rfl⟩
  | cons prefer rest ih =>
    rw [List.foldl_cons]
    by_cases hnarrow : ∃ v, narrow prefer vs = [v]
    · obtain ⟨v, hv⟩ := hnarrow
      have hrest : rest.foldl (fun left prefer => narrow prefer left) [v] = [v] := by
        clear ih
        induction rest with
        | nil => rfl
        | cons prefer rest ih => rw [List.foldl_cons, narrow_singleton, ih]
      refine .inl ⟨v, ?_, ?_⟩
      · rw [hv, hrest]
      · rw [pick?, hv]
    · have hnarrow' : ∀ v, narrow prefer vs ≠ [v] := not_exists.1 hnarrow
      rw [pick?_of_ne_singleton rest hnarrow']
      exact ih hnarrow'

/-- **Merging is settled by what is left.** Neither merging variants that agree at once nor stopping
at a single candidate changes the answer. -/
theorem merge_eq_settle {id path : String} (h : vs ≠ []) :
    merge id path vs = settle id path (finalists vs) := by
  by_cases hone : ∃ v, vs = [v]
  · obtain ⟨v, rfl⟩ := hone
    have hagree : Agree [v] := by simp [Agree]
    rw [hagree.finalists_eq]
    rfl
  · have hone' : ∀ v, vs ≠ [v] := not_exists.1 hone
    rw [merge_of_ne_singleton h hone']
    cases hidentical : mergeIdentical? vs with
    | some merged =>
      have hagree : Agree vs := (exists_mergeIdentical?_iff h).1 ⟨merged, hidentical⟩
      rw [hagree.finalists_eq, settle_of_ne_singleton hone', hidentical]
    | none =>
      have hfinalists : (preferences vs).foldl (fun left prefer => narrow prefer left) vs =
          finalists vs := by
        rw [finalists, ← narrow_leastChannel h]
        rfl
      rcases pick?_cases (preferences vs) hone' with ⟨v, hv, hpick⟩ | ⟨left, hleft, hmany, hpick⟩
      · rw [hfinalists] at hv
        rw [hv, hpick]
        rfl
      · rw [hfinalists] at hleft
        rw [hleft, hpick, settle_of_ne_singleton hmany]
        cases mergeIdentical? left <;> rfl

/-! ### Main result -/

/-- `d` is what each of the variants is but for its dependencies, and depends on what any of them
depends on. It has dependencies if any of them declares dependencies, be it none. -/
structure Unites (d : Definition) (vs : List Definition) : Prop where
  agrees : ∀ v ∈ vs, d.withoutDependencies = v.withoutDependencies
  declares_iff : d.dependencies.isSome = true ↔ ∃ v ∈ vs, v.dependencies.isSome = true
  depends_iff : ∀ id, id ∈ d.dependencyIds ↔ ∃ v ∈ vs, id ∈ v.dependencyIds
  /-- In order, and none twice. -/
  ascending : d.dependencyIds.Pairwise (· < ·)

theorem unites_of_mergeIdentical? {d : Definition} (h : mergeIdentical? vs = some d) :
    d.Unites vs := by
  obtain ⟨-, shape, hshape, rfl⟩ := mergeIdentical?_eq_some_iff.1 h
  have hmem : ∀ id, id ∈ allDependencies vs ↔ ∃ v ∈ vs, id ∈ v.dependencyIds := by
    intro id
    rw [allDependencies, NameSet.toList, ← NameSet.mem_def, NameSet.mem_ofList, List.mem_flatMap]
  refine ⟨fun v hv => ?_, ?_, fun id => ?_, ?_⟩
  · rw [← hshape v hv]
    rfl
  · rw [← List.any_eq_true]
    split <;> simp_all
  · rw [← hmem]
    by_cases hany : vs.any (·.dependencies.isSome) = true
    · rw [if_pos hany]
      rfl
    · rw [if_neg hany]
      refine iff_of_false List.not_mem_nil fun hid => ?_
      obtain ⟨v, hv, hid⟩ := (hmem id).1 hid
      have hnone : v.dependencies = none := by
        have hnot := fun hsome => hany (List.any_eq_true.2 ⟨v, hv, hsome⟩)
        simpa using hnot
      rw [dependencyIds, hnone] at hid
      exact List.not_mem_nil hid
  · unfold dependencyIds
    dsimp only
    split
    · exact (NameSet.ofList _).ascending
    · exact .nil

/-- **Merging narrows.** It succeeds if the variants that are left agree in all but their
dependencies. A single one is taken as it is, several ones are united; and if they do not agree, the
feature is ambiguous between them. The order of the variants does not matter. -/
theorem merge_narrows (id path : String) (h : vs ≠ []) :
    ((∃ d, merge id path vs = .ok d) ↔ Agree (finalists vs)) ∧
    (∀ d, finalists vs = [d] → merge id path vs = .ok d) ∧
    (2 ≤ (finalists vs).length → Agree (finalists vs) →
      ∃ d, merge id path vs = .ok d ∧ d.Unites (finalists vs)) ∧
    (¬Agree (finalists vs) →
      merge id path vs = .error (.ambiguous id path (finalists vs).length)) ∧
    ∀ vs', vs.Perm vs' → merge id path vs' = merge id path vs := by
  rw [merge_eq_settle h]
  have hleft : finalists vs ≠ [] := finalists_ne_nil h
  have hone : ∀ d, finalists vs = [d] → settle id path (finalists vs) = .ok d := by
    intro d hd
    rw [hd]
    rfl
  have hunited : 2 ≤ (finalists vs).length → Agree (finalists vs) →
      ∃ d, settle id path (finalists vs) = .ok d ∧ d.Unites (finalists vs) := by
    intro hlength hagree
    obtain ⟨d, hd⟩ := (exists_mergeIdentical?_iff hleft).2 hagree
    refine ⟨d, ?_, unites_of_mergeIdentical? hd⟩
    rw [settle_of_ne_singleton (ne_singleton_of_two_le hlength), hd]
  have hambiguous : ¬Agree (finalists vs) →
      settle id path (finalists vs) = .error (.ambiguous id path (finalists vs).length) := by
    intro hagree
    have hnone : mergeIdentical? (finalists vs) = none := by
      rw [Option.eq_none_iff_forall_ne_some]
      exact fun d hd => hagree ((exists_mergeIdentical?_iff hleft).1 ⟨d, hd⟩)
    have hnotOne : ∀ d, finalists vs ≠ [d] := by
      intro d hd
      rw [hd] at hagree
      simp [Agree] at hagree
    rw [settle_of_ne_singleton hnotOne, hnone]
  refine ⟨⟨fun hd => ?_, fun hagree => ?_⟩, hone, hunited, hambiguous, fun vs' hperm => ?_⟩
  · obtain ⟨d, hd⟩ := hd
    by_contra hagree
    rw [hambiguous hagree] at hd
    cases hd
  · by_cases hlength : 2 ≤ (finalists vs).length
    · obtain ⟨d, hd, -⟩ := hunited hlength hagree
      exact ⟨d, hd⟩
    · have hpos : 0 < (finalists vs).length := List.length_pos_of_ne_nil hleft
      obtain ⟨d, hd⟩ := List.length_eq_one_iff.1 (show (finalists vs).length = 1 by omega)
      exact ⟨d, hone d hd⟩
  · rw [← merge_eq_settle h]
    exact (merge_perm id path hperm).symm

/-- Variants of which one is on a more restrictive channel, one is for themes only, and one is
installed by policy. The other two differ in what they depend on. -/
def tabVariants : List Definition :=
  [{ channel := some .dev },
    { dependencies := some ["permission:tabs", "manifest:tabs"] },
    { location := some "policy" },
    { extensionTypes := some (.list ["theme"]) },
    { dependencies := some ["permission:activeTab", "permission:tabs"] }]

/-- The two are left, and are united in either order. -/
theorem merge_tabVariants :
    tabVariants ≠ [] ∧
    finalists tabVariants =
      [{ dependencies := some ["permission:tabs", "manifest:tabs"] },
        { dependencies := some ["permission:activeTab", "permission:tabs"] }] ∧
    merge "api:tabs" "tabs" tabVariants = .ok
      { dependencies := some ["manifest:tabs", "permission:activeTab", "permission:tabs"] } ∧
    (∃ d, merge "api:tabs" "tabs" tabVariants = .ok d ∧ d.Unites (finalists tabVariants)) ∧
    merge "api:tabs" "tabs" tabVariants.reverse = merge "api:tabs" "tabs" tabVariants := by
  have hne : tabVariants ≠ [] := by decide
  have hleft : finalists tabVariants =
      [{ dependencies := some ["permission:tabs", "manifest:tabs"] },
        { dependencies := some ["permission:activeTab", "permission:tabs"] }] := by decide
  have hagree : Agree (finalists tabVariants) := by
    rw [hleft]
    simp [Agree, withoutDependencies]
  obtain ⟨-, -, hunited, -, hperm⟩ := merge_narrows "api:tabs" "tabs" hne
  refine ⟨hne, hleft, by decide, hunited ?_ hagree, hperm _ (List.reverse_perm _).symm⟩
  rw [hleft]
  decide

end Definition

end ApiTypings
