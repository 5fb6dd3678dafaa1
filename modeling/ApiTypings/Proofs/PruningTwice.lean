import ApiTypings.Proofs.HiddenContent
/-!
# Pruning twice

What pruning leaves of a namespace is left as it is when it is pruned again with the same resolver
(`Namespace.prune_prune`).

The second time, every property comes with the marks of the first. The verdict on it is the one that
gave it these marks, marks it in the same way and hands on the same surroundings (`Verdict.of_traits`
and its kin). So annotating is idempotent, for types and for namespaces. What was dropped in between
is not missed, because annotating does not look at what is hidden (`Namespace.prune_visible`).
-/

namespace ApiTypings

/-! ### Verdicts -/

namespace Verdict

/-- A parent's deprecation that was taken over counts as an own one. -/
theorem deprecated_or_or (mine parent : Option String) :
    ((mine <|> parent) <|> parent) = (mine <|> parent) := by
  cases mine with
  | some text => rfl
  | none => cases parent <;> rfl

theorem traits_traits (v : Verdict) (old : Traits) : v.traits (v.traits old) = v.traits old := by
  cases v with
  | hidden => rfl
  | shown path a parent => simp only [traits, deprecated_or_or]

theorem below_traits (v : Verdict) (old : Traits) : v.below (v.traits old) = v.below old := by
  cases v with
  | hidden => rfl
  | shown path a parent => simp only [below, traits, deprecated_or_or]

/-- **The verdict stands.** On the traits that it has left, it is the verdict again. -/
theorem of_traits {r : Resolver} {s : Option Surroundings} {old : Traits} {name : String}
    {v : Verdict} (h : of r s old name = .ok v) : of r s (v.traits old) name = .ok v := by
  rcases of_cases h with ⟨rfl, -⟩ | ⟨parent, a, rfl, hnodoc, ha, rfl⟩
  · -- Whatever the reason was, now the property is hidden already, and nothing is asked.
    cases s <;> rfl
  · have hshown : (traits (shown (member parent.path name) a parent) old).nodoc = false := hnodoc
    simp only [of, hshown, Bool.false_eq_true, if_false, ha]
    rfl

end Verdict

/-! ### Types -/

/-- A list is left as it is by a step that leaves what it has made of each element. -/
theorem forall₂_self_of_settled {ε α : Type} {f : α → Except ε α} {xs ys : List α}
    (h : List.Forall₂ (fun x y => f x = .ok y) xs ys)
    (hsettled : ∀ x ∈ xs, ∀ y, f x = .ok y → f y = .ok y) :
    List.Forall₂ (fun x y => f x = .ok y) ys ys := by
  refine forall₂_of_both h h fun x hx y z hy hz => ?_
  have hyz : y = z := Except.ok.inj (hy.symm.trans hz)
  rw [← hyz]
  exact hsettled x hx y hy

namespace ApiType

variable {r : Resolver} {s : Option Surroundings} {t t' : ApiType}

/-- **Annotating is idempotent.** An annotated type is left as it is. -/
theorem annotate_annotate (h : annotate r s t = .ok t') : annotate r s t' = .ok t' := by
  -- What is nested in a property has other surroundings, so `s` changes along the induction.
  induction t using nesting_induction generalizing s t' with
  | step t hparts hnested =>
    have hpart : ∀ a ∈ t.parts, ∀ a', annotate r s a = .ok a' → annotate r s a' = .ok a' :=
      fun a ha a' ha' => hparts a ha ha'
    have hproperty : ∀ p ∈ t.nested, ∀ p', annotateProperty r s p = .ok p' →
        annotateProperty r s p' = .ok p' := by
      intro p hp p' hp'
      obtain ⟨v, type, hv, htype, rfl⟩ := annotateProperty_eq_ok_iff.1 hp'
      have hbelow : annotate r (v.below (v.traits p.toTraits)) type = .ok type := by
        rw [Verdict.below_traits]
        exact hnested p hp htype
      refine annotateProperty_eq_ok_iff.2 ⟨v, type, Verdict.of_traits hv, hbelow, ?_⟩
      rw [Verdict.traits_traits]
    refine annotate_of_annotated ?_
    cases annotated_of_annotate h with
    | primitive => exact .primitive
    | literal => exact .literal
    | number => exact .number
    | reference ha => exact .reference (forall₂_self_of_settled ha hpart)
    | sequence he => exact .sequence (hpart _ (List.mem_singleton_self _) _ he)
    | object hp => exact .object (forall₂_self_of_settled hp hproperty)
    | intersection hi => exact .intersection (forall₂_self_of_settled hi hpart)
    | choices hi => exact .choices (forall₂_self_of_settled hi hpart)
    | function hp hr hc =>
      have hparameters := forall₂_self_of_settled hp fun p hp => hproperty p
        (List.mem_append_left _ (List.mem_append_left _ hp))
      have hreturns := forall₂_self_of_settled (forall₂_of_annotateOption hr) fun p hp =>
        hproperty p (List.mem_append_left _ (List.mem_append_right _ hp))
      have hcompletion := forall₂_self_of_settled (forall₂_of_annotateOption hc) fun p hp =>
        hproperty p (List.mem_append_right _ hp)
      exact .function hparameters (annotateOption_of_forall₂ hreturns)
        (annotateOption_of_forall₂ hcompletion)

end ApiType

/-! ### Namespaces -/

namespace Namespace

variable {ns n : Namespace} {r : Resolver}

/-- The surroundings that a namespace hands on are left as they are. -/
theorem surroundings_withMembers (members : List (Property ApiType)) (answer : Option Availability) :
    (ns.withMembers members (ns.surroundings answer)).surroundings answer =
      ns.surroundings answer := by
  unfold surroundings
  cases hnodoc : ns.nodoc with
  | true => rfl
  | false =>
    cases answer with
    | none => rfl
    | some a => simp [withMembers, hnodoc]

theorem withMembers_withMembers (members : List (Property ApiType)) (s : Option Surroundings) :
    (ns.withMembers members s).withMembers members s = ns.withMembers members s := by
  cases s <;> rfl

/-- **Annotating is idempotent.** An annotated namespace is left as it is. -/
theorem annotate_annotate (h : ns.annotate r = .ok n) : n.annotate r = .ok n := by
  obtain ⟨answer, members, hanswer, hmembers, rfl⟩ := annotate_eq_ok_iff.1 h
  have hsettled : ApiType.annotateProperties r (ns.surroundings answer) members = .ok members := by
    have hbody := ApiType.annotate_annotate (annotate_body hmembers)
    cases ApiType.annotated_of_annotate hbody with
    | object hp =>
      rw [members_withMembers] at hp
      exact ApiType.annotateProperties_eq_ok_iff.2 hp
  refine annotate_eq_ok_iff.2 ⟨answer, members, ?_, ?_, ?_⟩
  · rw [name_withMembers]
    exact hanswer
  · rw [surroundings_withMembers, members_withMembers]
    exact hsettled
  · rw [surroundings_withMembers, withMembers_withMembers]

/-- **Pruning is idempotent.** What pruning leaves of a namespace can be pruned again, with the same
resolver, and is left as it is. -/
theorem prune_prune (h : ns.prune r = .ok n) : n.prune r = .ok n := by
  obtain ⟨annotated, hannotated, rfl⟩ := map_eq_ok_iff.1 h
  rw [prune_visible]
  unfold prune
  rw [annotate_annotate hannotated]
  rfl

/-- A namespace in which there is something of everything to prune: a deprecation to take over, a
property that is not available, a hidden callback, and a hidden result with properties below it. -/
def fading : Namespace :=
  let hidden (name : String) (type : ApiType) : Property ApiType :=
    { name := name, type := type, nodoc := true }
  let finder : ApiType := .function [.plain "x" (.primitive .any)]
    (some (.result (.primitive .any))) none false
  let loader : ApiType := .function [.plain "url" (.primitive .string)]
    (some (hidden Property.returnName finder)) (some (hidden "callback" finder)) false
  { name := "a"
    deprecated := some "Use b."
    members := [.plain "T" (.object
      [.plain "secret" (.primitive .string), .plain "load" loader] none none none)] }

/-- The names of the properties in a namespace, whether they are hidden, and their deprecations. -/
def marks (ns : Namespace) : List (String × Bool × Option String) :=
  ns.lineages.map fun l => (l.property.name, l.property.nodoc, l.property.deprecated)

/-- The hidden result stays, and what is below it is hidden or gone. -/
theorem prune_fading : ∃ n, fading.prune internalSecret = .ok n ∧
    n.marks = [("T", false, some "Use b."), ("load", false, some "Use b."),
      ("url", false, some "Use b."), ("return", true, none), ("return", true, none)] ∧
    n.prune internalSecret = .ok n := by
  have hmarks : (fading.prune internalSecret).map marks =
      .ok [("T", false, some "Use b."), ("load", false, some "Use b."),
        ("url", false, some "Use b."), ("return", true, none), ("return", true, none)] := by
    decide +kernel
  obtain ⟨n, hn, hm⟩ := map_eq_ok_iff.1 hmarks
  exact ⟨n, hn, hm, prune_prune hn⟩

end Namespace

end ApiTypings
