import ApiTypings.Compiler
import ApiTypings.Proofs.Marking
import ApiTypings.Proofs.StableOrder
/-!
# What a compilation keeps

A compilation prunes every namespace by itself and then declares those of which anything is left,
in the order of their names. Here this is said of the namespaces as they were before:
`Resolver.shownIn` are the properties that are kept, `Resolver.declared` the namespaces that are
declared.

* `ApiType.Kept` relates a property that is kept to what is left of it, `Namespace.Kept` does so
  for a namespace.
* `Compiler.compile_eq_ok_iff` takes a compilation apart, and `Resolver.forall₂_declared` puts the
  namespaces that are declared beside what is left of them.
-/

namespace ApiTypings

/-! ### What is shown -/

namespace Resolver

variable {r : Resolver}

instance {path : String} : Decidable (∃ a, r.query path = .ok (some a)) :=
  match h : r.query path with
  | .ok (some a) => isTrue ⟨a, rfl⟩
  | .ok none => isFalse fun ⟨_, ha⟩ => (by cases ha)
  | .error _ => isFalse fun ⟨_, ha⟩ => (by cases ha)

instance {path : String} {traits : Traits} : Decidable (r.Shows path traits) :=
  inferInstanceAs (Decidable (_ ∧ _))

/-- The properties that are shown in a parent that is shown. -/
def shownIn (r : Resolver) (parent : String) (ps : List (Property ApiType)) :
    List (Property ApiType) :=
  ps.filter fun p => r.Shows (member parent p.name) p.toTraits

/-- A namespace is declared: it is shown, and so is one of its members. -/
def Declares (r : Resolver) (ns : Namespace) : Prop :=
  ns.Shown r [] ∧ r.shownIn ns.name ns.members ≠ []

instance {ns : Namespace} : Decidable (r.Declares ns) :=
  inferInstanceAs (Decidable ((_ ∧ _) ∧ _ ≠ _))

/-- The namespaces that are declared, in the order of their names. -/
def declared (r : Resolver) (namespaces : List Namespace) : List Namespace :=
  (namespaces.filter fun ns => r.Declares ns).mergeSort (keyLE Namespace.name)

theorem mem_declared_iff {namespaces : List Namespace} {ns : Namespace} :
    ns ∈ r.declared namespaces ↔ ns ∈ namespaces ∧ r.Declares ns := by
  rw [declared, List.mem_mergeSort, List.mem_filter, decide_eq_true_iff]

end Resolver

/-! ### Properties that are kept -/

namespace ApiType

variable {r : Resolver} {s : Option Surroundings} {parent : Surroundings} {t u : ApiType}

/-- Of the property `p`, which is shown in `parent`, pruning keeps `q`. -/
structure Kept (r : Resolver) (parent : Surroundings) (p q : Property ApiType) : Prop where
  name_eq : q.name = p.name
  nodoc_eq : q.nodoc = false
  exists_below : ∃ a,
    q.toTraits = (Verdict.shown (member parent.path p.name) a parent).traits p.toTraits ∧
      Prunes r (some ⟨member parent.path p.name, a, p.deprecated <|> parent.deprecated⟩)
        p.type q.type

/-- **What is kept of properties** is what was shown, in its order. -/
theorem forall₂_kept {ps ps' : List (Property ApiType)}
    (h : annotateProperties r (some parent) ps = .ok ps') :
    List.Forall₂ (Kept r parent) (r.shownIn parent.path ps) (visibleProperties ps') := by
  rw [annotateProperties_eq_ok_iff] at h
  rw [visibleProperties_eq_map, List.forall₂_map_right_iff]
  induction h with
  | nil => exact .nil
  | @cons p p' ps ps' hp _ ih =>
    obtain ⟨v, type, hv, htype, rfl⟩ := annotateProperty_eq_ok_iff.1 hp
    unfold Resolver.shownIn Property.visible at ih ⊢
    rw [List.filter_cons, List.filter_cons]
    rcases Verdict.of_cases hv with ⟨rfl, hhidden⟩ | ⟨_, a, hparent, hnodoc, ha, rfl⟩
    · have hnot : ¬r.Shows (member parent.path p.name) p.toTraits := by
        rintro ⟨hnodoc, a, ha⟩
        have hnone := hhidden parent rfl hnodoc
        rw [ha] at hnone
        cases hnone
      rw [decide_eq_false hnot]
      exact ih
    · cases hparent
      rw [if_pos (decide_eq_true ⟨hnodoc, a, ha⟩), if_pos]
      · exact .cons ⟨rfl, hnodoc, a, rfl, type, htype, rfl⟩ ih
      · exact congrArg Bool.not hnodoc

/-- There is something visible among the properties that are kept unless there are none. -/
theorem any_visible_of_kept {ps qs : List (Property ApiType)}
    (h : List.Forall₂ (Kept r parent) ps qs) : qs.any (!·.nodoc) = true ↔ ps ≠ [] := by
  cases h with
  | nil => exact ⟨fun h => (by cases h), fun h => absurd rfl h⟩
  | cons hkept _ =>
    rw [List.any_cons, hkept.nodoc_eq]
    exact ⟨fun _ => List.cons_ne_nil _ _, fun _ => rfl⟩

/-- Pruning leaves the outside of a type: what depends neither on marks nor on hidden properties. -/
theorem Prunes.outside_eq {α : Type} {f : ApiType → α} (h : Prunes r s t u)
    (hmarks : ∀ t, f (mapTraits Traits.unmarked t) = f t) (hvisible : ∀ t, f (visible t) = f t) :
    f u = f t := by
  obtain ⟨t', ht, rfl⟩ := h
  rw [hvisible, ← hmarks t', mapTraits_annotate Verdict.unmarked_traits ht, hmarks]

end ApiType

/-! ### Namespaces that are kept -/

namespace Namespace

/-- Of the namespace `ns`, which is declared, pruning keeps `n`. -/
structure Kept (r : Resolver) (ns n : Namespace) : Prop where
  name_eq : n.name = ns.name
  deprecated_eq : n.deprecated = ns.deprecated
  exists_members : ∃ a, List.Forall₂ (ApiType.Kept r ⟨ns.name, a, ns.deprecated⟩)
    (r.shownIn ns.name ns.members) n.members

variable {ns n : Namespace} {r : Resolver}

theorem name_of_prune (h : ns.prune r = .ok n) : n.name = ns.name := by
  obtain ⟨-, -, -, hname⟩ := exists_prunes_body h
  exact hname

/-- A namespace has something to declare after pruning if it is declared, and it is kept then. -/
theorem kept_of_prune (h : ns.prune r = .ok n) :
    (n.hasVisibleMembers = true ↔ r.Declares ns) ∧ (r.Declares ns → ns.Kept r n) := by
  obtain ⟨annotated, hannotated, rfl⟩ := map_eq_ok_iff.1 h
  obtain ⟨answer, members, hanswer, hmembers, rfl⟩ := annotate_eq_ok_iff.1 hannotated
  cases hsur : ns.surroundings answer with
  | none =>
    have hnot : ¬r.Declares ns :=
      fun hdeclares => hdeclares.1.not_hidden ((governs_surroundings hanswer).hidden hsur)
    exact ⟨⟨fun hvisible => (by cases hvisible), fun hdeclares => absurd hdeclares hnot⟩,
      fun hdeclares => absurd hdeclares hnot⟩
  | some parent =>
    obtain ⟨hshown, hpath, -, hdeprecated⟩ := (governs_surroundings hanswer).shown parent hsur
    obtain ⟨path, availability, deprecated⟩ := parent
    obtain rfl : path = ns.name := hpath
    obtain rfl : deprecated = ns.deprecated := hdeprecated
    rw [hsur] at hmembers
    have hkept := ApiType.forall₂_kept hmembers
    have hvisible : (ns.withMembers members (some ⟨ns.name, availability, ns.deprecated⟩)).visible =
        { ns.withMembers members (some ⟨ns.name, availability, ns.deprecated⟩) with
          members := ApiType.visibleProperties members } :=
      if_neg (hshown.1 ▸ Bool.false_ne_true)
    rw [hvisible]
    refine ⟨?_, fun _ => ⟨rfl, rfl, availability, hkept⟩⟩
    show (!ns.nodoc && (ApiType.visibleProperties members).any (!·.nodoc)) = true ↔ _
    rw [hshown.1, Bool.not_false, Bool.true_and, ApiType.any_visible_of_kept hkept]
    exact (and_iff_right hshown).symm

end Namespace

/-! ### Compilations -/

/-- Hidden namespaces have nothing to declare, so they can be dropped before. -/
theorem declareNamespaces_filter (options : RenderOptions) (namespaces : List Namespace) :
    declareNamespaces options (namespaces.filter (!·.nodoc)) =
      declareNamespaces options namespaces := by
  have hvisible : visibleNamespaces (namespaces.filter (!·.nodoc)) =
      visibleNamespaces namespaces := by
    unfold visibleNamespaces
    rw [List.filter_filter]
    congr 2
    funext n
    unfold Namespace.hasVisibleMembers
    rw [Bool.and_comm, ← Bool.and_assoc, Bool.and_self]
  unfold declareNamespaces
  rw [hvisible]

/-- The namespaces that are declared, beside what is left of them. -/
theorem Resolver.forall₂_declared {r : Resolver} {namespaces pruned : List Namespace}
    (h : List.Forall₂ (fun ns n => Namespace.prune ns r = .ok n) namespaces pruned) :
    List.Forall₂ (fun ns n => Namespace.prune ns r = .ok n ∧ ns.Kept r n) (r.declared namespaces)
      (visibleNamespaces pruned) := by
  have hfilter : List.Forall₂ (fun ns n => Namespace.prune ns r = .ok n)
      (namespaces.filter fun ns => r.Declares ns) (pruned.filter Namespace.hasVisibleMembers) :=
    forall₂_filter h fun ns n hn =>
      Bool.eq_iff_iff.2 ((Namespace.kept_of_prune hn).1.trans decide_eq_true_iff.symm)
  have hsorted : List.Forall₂ (fun ns n => Namespace.prune ns r = .ok n) (r.declared namespaces)
      (visibleNamespaces pruned) :=
    forall₂_mergeSort hfilter fun ns n hn => (Namespace.name_of_prune hn).symm
  refine ((List.forall₂_and_left _ _).2
    ⟨fun ns hns => (mem_declared_iff.1 hns).2, hsorted⟩).imp fun ns n hn => ?_
  exact ⟨hn.2, (Namespace.kept_of_prune hn.2).2 hn.1⟩

namespace Compiler

variable {c : Compiler} {namespaces : List Namespace}

/-- **A compilation** succeeds if every namespace can be pruned and what is left can be declared. -/
theorem compile_eq_ok_iff {text : String} {table : SymbolTable} :
    c.compile namespaces = .ok (text, table) ↔ ∃ pruned document,
      List.Forall₂ (fun ns n => Namespace.prune ns c.resolver = .ok n) namespaces pruned ∧
        (declareNamespaces c.render pruned {}).result = .ok document ∧
          text = document.text c.render.indent ∧
            table = .ofList (declareNamespaces c.render pruned {}).symbols := by
  unfold compile prune renderPruned Renderer.render
  simp only [bind_eq_ok_iff, mapError_eq_ok_iff, map_eq_ok_iff, mapM_eq_ok_iff, Prod.mk.injEq]
  constructor
  · rintro ⟨_, ⟨pruned, hpruned, rfl⟩, _, ⟨document, hdocument, rfl⟩, rfl, rfl⟩
    rw [declareNamespaces_filter] at hdocument ⊢
    exact ⟨pruned, document, hpruned, hdocument, rfl, rfl⟩
  · rintro ⟨pruned, document, hpruned, hdocument, rfl, rfl⟩
    rw [← declareNamespaces_filter] at hdocument ⊢
    exact ⟨_, ⟨pruned, hpruned, rfl⟩, _, ⟨document, hdocument, rfl⟩, rfl, rfl⟩

end Compiler

end ApiTypings
