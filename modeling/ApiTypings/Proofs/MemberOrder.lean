import ApiTypings.Proofs.DeclaredNames
import ApiTypings.Proofs.Modularity
/-!
# The order of members does not matter where they are sorted

A schema writes the members of a namespace in some order, and a compilation that sorts members must
not show it. Here two lists of namespaces are compiled side by side, of which one has the members of
each namespace in another order than the other (`Namespace.Reordered`).

* Pruning decides about each member by itself, so it can be done in either order or in none, and
  leaves the same members in another order (`Namespace.Reordered.exists_prune`).
* Declaring takes the members in three groups. Once these are sorted by names that are all
  different, nothing is left of the order before (`memberGroups_eq_of_perm`): the two namespaces are
  declared by the same computation (`declareNamespace_of_reordered`).

Main statement: `Compiler.compile_sorted`.
-/

namespace ApiTypings

/-! ### Pruning -/

namespace Namespace

variable {ns ns' n : Namespace} {r : Resolver}

/-- The second namespace is the first with its members in another order. -/
def Reordered (ns ns' : Namespace) : Prop :=
  ∃ members, ns.members.Perm members ∧ ns' = { ns with members }

/-- The names of the members are all different. -/
def DistinctNames (ns : Namespace) : Prop :=
  (ns.members.map (·.name)).Nodup

namespace Reordered

theorem name_eq (h : ns.Reordered ns') : ns'.name = ns.name := by
  obtain ⟨members, -, rfl⟩ := h
  rfl

theorem symm (h : ns.Reordered ns') : ns'.Reordered ns := by
  obtain ⟨members, hperm, rfl⟩ := h
  exact ⟨ns.members, hperm.symm, rfl⟩

theorem distinctNames (h : ns.Reordered ns') (hdistinct : ns.DistinctNames) :
    ns'.DistinctNames := by
  obtain ⟨members, hperm, rfl⟩ := h
  exact (hperm.map _).nodup_iff.1 hdistinct

theorem hasVisibleMembers_eq (h : ns.Reordered ns') :
    ns'.hasVisibleMembers = ns.hasVisibleMembers := by
  obtain ⟨members, hperm, rfl⟩ := h
  unfold hasVisibleMembers
  rw [hperm.any_eq]

theorem visible (h : ns.Reordered ns') : ns.visible.Reordered ns'.visible := by
  obtain ⟨members, hperm, rfl⟩ := h
  cases hnodoc : ns.nodoc with
  | true =>
    refine ⟨[], ?_, ?_⟩
    · simp [Namespace.visible, hnodoc]
    · simp [Namespace.visible, hnodoc]
  | false =>
    refine ⟨ApiType.visibleProperties members, ?_, ?_⟩
    · have hvisible : (Property.visible ns.members).Perm (Property.visible members) :=
        hperm.filter _
      simp only [Namespace.visible, hnodoc, Bool.false_eq_true, if_false,
        ApiType.visibleProperties_eq_map]
      exact hvisible.map _
    · simp [Namespace.visible, hnodoc]

/-- Every member is annotated by itself, so the order in which this is done shows in nothing but the
order of the members. -/
theorem exists_annotate (h : ns.Reordered ns') (hn : ns.annotate r = .ok n) :
    ∃ n', ns'.annotate r = .ok n' ∧ n.Reordered n' := by
  obtain ⟨members, hperm, rfl⟩ := h
  obtain ⟨answer, annotated, hanswer, hannotated, rfl⟩ := annotate_eq_ok_iff.1 hn
  rw [ApiType.annotateProperties_eq_mapM] at hannotated
  obtain ⟨annotated', hannotated', hperm'⟩ := exists_mapM_of_perm hperm hannotated
  rw [← ApiType.annotateProperties_eq_mapM] at hannotated'
  refine ⟨_, annotate_eq_ok_iff.2 ⟨answer, annotated', hanswer, hannotated', rfl⟩, annotated', ?_, ?_⟩
  · rw [members_withMembers]
    exact hperm'
  · show Namespace.withMembers _ _ (ns.surroundings answer) = _
    cases ns.surroundings answer <;> rfl

/-- **Pruning** leaves the same members, in another order. -/
theorem exists_prune (h : ns.Reordered ns') (hn : ns.prune r = .ok n) :
    ∃ n', ns'.prune r = .ok n' ∧ n.Reordered n' := by
  obtain ⟨annotated, hannotated, rfl⟩ := map_eq_ok_iff.1 hn
  obtain ⟨annotated', hannotated', h'⟩ := h.exists_annotate hannotated
  exact ⟨annotated'.visible, map_eq_ok_iff.2 ⟨annotated', hannotated', rfl⟩, h'.visible⟩

end Reordered

theorem DistinctNames.prune (h : ns.DistinctNames) (hn : ns.prune r = .ok n) : n.DistinctNames :=
  h.sublist (names_prune hn)

end Namespace

/-! ### Declaring -/

/-- Members with different names make the same sorted groups in any order. -/
theorem memberGroups_eq_of_perm {members members' : List (Property ApiType)}
    (h : members.Perm members') (hnodup : (members.map (·.name)).Nodup) :
    memberGroups true members = memberGroups true members' := by
  have hvisible : (Property.visible members).Perm (Property.visible members') := h.filter _
  have hvisibleNodup : ((Property.visible members).map (·.name)).Nodup :=
    hnodup.sublist (List.filter_sublist.map _)
  -- Every group is what a filter leaves of the visible members, so the names in it are different.
  have hgroup : ∀ p : Property ApiType → Bool,
      sortByName ((Property.visible members).filter p) =
        sortByName ((Property.visible members').filter p) := by
    intro p
    apply mergeSort_eq_of_perm (hvisible.filter p)
    exact hvisibleNodup.sublist (List.filter_sublist.map _)
  unfold memberGroups
  simp only [List.filter_filter, if_true, hgroup]

section

variable {options : RenderOptions}

/-- **Namespaces that differ in the order of their members are declared alike**, if members are
sorted: with the same block or the same error, and with the same announcements. -/
theorem declareNamespace_of_reordered {n n' : Namespace} (hsort : options.sortMembers = true)
    (h : n.Reordered n') (hdistinct : n.DistinctNames) :
    declareNamespace options n = declareNamespace options n' := by
  obtain ⟨members, hperm, rfl⟩ := h
  unfold declareNamespace declareMembers
  rw [hsort, memberGroups_eq_of_perm hperm hdistinct]

theorem forall₂_visibleNamespaces {namespaces namespaces' : List Namespace}
    (h : List.Forall₂ Namespace.Reordered namespaces namespaces') :
    List.Forall₂ Namespace.Reordered (visibleNamespaces namespaces)
      (visibleNamespaces namespaces') := by
  have hfilter := forall₂_filter h fun n n' hn => hn.hasVisibleMembers_eq
  exact forall₂_mergeSort hfilter fun n n' hn => hn.name_eq.symm

theorem declareNamespaces_of_reordered {namespaces namespaces' : List Namespace}
    (hsort : options.sortMembers = true)
    (h : List.Forall₂ Namespace.Reordered namespaces namespaces')
    (hdistinct : ∀ n ∈ namespaces, n.DistinctNames) :
    declareNamespaces options namespaces = declareNamespaces options namespaces' := by
  have hvisible := forall₂_visibleNamespaces h
  have hblocks : (visibleNamespaces namespaces').map (declareNamespace options) =
      (visibleNamespaces namespaces).map (declareNamespace options) := by
    refine map_eq_of_forall₂ hvisible fun n hn n' hreordered => ?_
    have hmem : n ∈ namespaces := List.mem_of_mem_filter (List.mem_mergeSort.1 hn)
    exact (declareNamespace_of_reordered hsort hreordered (hdistinct n hmem)).symm
  have hnames : (visibleNamespaces namespaces').map (·.name) =
      (visibleNamespaces namespaces).map (·.name) :=
    map_eq_of_forall₂ hvisible fun n _ n' hreordered => hreordered.name_eq
  have hrun : (visibleNamespaces namespaces').mapM (declareNamespace options) =
      (visibleNamespaces namespaces).mapM (declareNamespace options) := by
    have hmapM : ∀ ns : List Namespace,
        (ns.map (declareNamespace options)).mapM id = ns.mapM (declareNamespace options) :=
      fun ns => List.mapM_map
    rw [← hmapM, ← hmapM, hblocks]
  unfold declareNamespaces
  dsimp only
  rw [hrun, hnames]

end

/-! ### Compiling -/

namespace Compiler

variable {c : Compiler} {namespaces namespaces' : List Namespace}

/-- The two lists can be pruned side by side. -/
theorem exists_prune_of_reordered {r : Resolver} {pruned : List Namespace}
    (h : List.Forall₂ Namespace.Reordered namespaces namespaces')
    (hpruned : List.Forall₂ (fun ns n => Namespace.prune ns r = .ok n) namespaces pruned) :
    ∃ pruned', List.Forall₂ (fun ns n => Namespace.prune ns r = .ok n) namespaces' pruned' ∧
      List.Forall₂ Namespace.Reordered pruned pruned' := by
  induction h generalizing pruned with
  | nil =>
    cases hpruned
    exact ⟨[], .nil, .nil⟩
  | cons hreordered _ ih =>
    cases hpruned with
    | cons hn hrest =>
      obtain ⟨n', hn', hafter⟩ := hreordered.exists_prune hn
      obtain ⟨rest', hrest', hrestAfter⟩ := ih hrest
      exact ⟨n' :: rest', .cons hn' hrest', .cons hafter hrestAfter⟩

theorem compile_of_reordered (hsort : c.render.sortMembers = true)
    (h : List.Forall₂ Namespace.Reordered namespaces namespaces')
    (hdistinct : ∀ ns ∈ namespaces, ns.DistinctNames) {file : String × SymbolTable}
    (hfile : c.compile namespaces = .ok file) : c.compile namespaces' = .ok file := by
  obtain ⟨text, table⟩ := file
  obtain ⟨pruned, document, hpruned, hdocument, htext, htable⟩ := compile_eq_ok_iff.1 hfile
  obtain ⟨pruned', hpruned', hafter⟩ := exists_prune_of_reordered h hpruned
  have hprunedDistinct : ∀ n ∈ pruned, n.DistinctNames := by
    intro n hn
    obtain ⟨ns, hns, hprune⟩ := exists_left_of_mem hpruned hn
    exact (hdistinct ns hns).prune hprune
  have hdeclared := declareNamespaces_of_reordered hsort hafter hprunedDistinct
  rw [hdeclared] at hdocument htable
  exact compile_eq_ok_iff.2 ⟨pruned', document, hpruned', hdocument, htext, htable⟩

/-- **The order of members does not matter where members are sorted.** Take two lists of namespaces
of which one has the members of each namespace in another order than the other, as any two texts may
write them. One list can be compiled exactly if the other can, and both make the same file with the
same symbols. -/
theorem compile_sorted {c : Compiler} (hsort : c.render.sortMembers = true) :
    (∀ namespaces namespaces' : List Namespace,
      List.Forall₂ Namespace.Reordered namespaces namespaces' →
        (∀ ns ∈ namespaces, ns.DistinctNames) →
          ∀ file, c.compile namespaces = .ok file ↔ c.compile namespaces' = .ok file) ∧
    ∀ (texts texts' : List String) (namespaces namespaces' : List Namespace),
      parse texts = .ok namespaces → parse texts' = .ok namespaces' →
        List.Forall₂ Namespace.Reordered namespaces namespaces' →
          ∀ file, c.compileTexts texts = .ok file ↔ c.compileTexts texts' = .ok file := by
  have hboth : ∀ namespaces namespaces' : List Namespace,
      List.Forall₂ Namespace.Reordered namespaces namespaces' →
        (∀ ns ∈ namespaces, ns.DistinctNames) →
          ∀ file, c.compile namespaces = .ok file ↔ c.compile namespaces' = .ok file := by
    intro namespaces namespaces' h hdistinct file
    constructor
    · exact compile_of_reordered hsort h hdistinct
    · have hback : List.Forall₂ Namespace.Reordered namespaces' namespaces :=
        .flip (h.imp fun ns ns' hns => hns.symm)
      apply compile_of_reordered hsort hback
      intro ns' hns'
      obtain ⟨ns, hns, hreordered⟩ := exists_left_of_mem h hns'
      exact hreordered.distinctNames (hdistinct ns hns)
  refine ⟨hboth, fun texts texts' namespaces namespaces' hparse hparse' h file => ?_⟩
  have hdistinct : ∀ ns ∈ namespaces, ns.DistinctNames :=
    forall_of_parse (·.nodup_parse) hparse
  unfold compileTexts
  rw [hparse, hparse']
  exact hboth namespaces namespaces' h hdistinct file

/-- Sorts members. -/
def sorting : Compiler where
  resolver := { table := ⟨[("api:history", [{}])]⟩ }
  render := { sortMembers := true }

/-- A namespace that is written from its function to its type. -/
def history : Namespace where
  name := "history"
  members := [
    .plain "delete" (.function [] none none false),
    .plain "limit" (.primitive .boolean),
    { isType := true, name := "Visit", type := .object [.plain "id" .any] none none none }]

/-- With its members in the opposite order it makes the same file. -/
theorem compile_history :
    sorting.render.sortMembers = true ∧
    (∀ ns ∈ [history], ns.DistinctNames) ∧
    List.Forall₂ Namespace.Reordered [history]
      [{ history with members := history.members.reverse }] ∧
    ∃ file, sorting.compile [history] = .ok file ∧
      sorting.compile [{ history with members := history.members.reverse }] = .ok file ∧
      file.2.symbols.map (·.path) =
        ["history", "history.Visit", "history.Visit.id", "history.limit", "history.delete"] := by
  have hsort : sorting.render.sortMembers = true := rfl
  have hdistinct : ∀ ns ∈ [history], ns.DistinctNames := by
    rw [List.forall_mem_singleton]
    show (history.members.map (·.name)).Nodup
    decide
  have hreordered : List.Forall₂ Namespace.Reordered [history]
      [{ history with members := history.members.reverse }] :=
    .cons ⟨_, (List.reverse_perm _).symm, rfl⟩ .nil
  have hrun : (sorting.compile [history]).map (fun file => file.2.symbols.map (·.path)) =
      .ok ["history", "history.Visit", "history.Visit.id", "history.limit", "history.delete"] := by
    decide +kernel
  obtain ⟨file, hfile, hsymbols⟩ := map_eq_ok_iff.1 hrun
  have hsame := (compile_sorted hsort).1 _ _ hreordered hdistinct file
  exact ⟨hsort, hdistinct, hreordered, file, hfile, hsame.1 hfile, hsymbols⟩

end Compiler

end ApiTypings
