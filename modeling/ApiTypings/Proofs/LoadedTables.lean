import ApiTypings.Proofs.CyclicDependencies
/-!
# Tables that are loaded from files

Loading a feature file adds definitions to a table, one after another. Which ones they are, and
whether the file is refused in the end, is a matter of its text alone
(`FeatureTable.exists_load_eq`). So whatever was loaded, and wherever a file was refused, every id
of the table has a known prefix and at least one variant (`FeatureTable.Sound`).

Of such a table a query can fail in two ways only: by an ambiguity or by a cycle
(`Resolver.query_loaded`). The ids that features depend on may be any texts. What has no known
prefix has no definition either, and a query answers before it would ask for the prefix.
-/

namespace ApiTypings

/-! ### Prefixes -/

/-- The id of a feature tells its kind and its name. -/
theorem FeatureKind.splitId_id (kind : FeatureKind) (name : String) :
    splitId (kind.id name) = .ok (kind, name) := by
  have hcolon : ∀ c ∈ kind.name.toList, decide (c ≠ ':') = true := by
    rw [← List.all_eq_true]
    cases kind <;> rfl
  have hchars : (kind.id name).toList = kind.name.toList ++ ':' :: name.toList := by
    simp [FeatureKind.id]
  have hsplit : splitFirst? ':' (kind.id name) = some (kind.name, name) := by
    unfold splitFirst?
    rw [hchars, List.dropWhile_append_of_pos hcolon, List.takeWhile_append_of_pos hcolon]
    simp
  have hkind : ofName? kind.name = some kind := by
    cases kind <;> decide
  rw [splitId, hsplit]
  simp only [hkind]

namespace FeatureTable

/-! ### Adding definitions -/

/-- The table with several more definitions, in their order. -/
def insertAll (t : FeatureTable) (ds : List (String × Definition)) : FeatureTable :=
  ds.foldl (fun t d => t.insert d.1 d.2) t

theorem insertAll_append (t : FeatureTable) (ds ds' : List (String × Definition)) :
    t.insertAll (ds ++ ds') = (t.insertAll ds).insertAll ds' :=
  List.foldl_append

/-- **Definitions are added at the end** of the variants of their ids. -/
theorem variants_insertAll (t : FeatureTable) (ds : List (String × Definition)) (id : String) :
    (t.insertAll ds).variants id = t.variants id ++ (ds.filter (·.1 = id)).map (·.2) := by
  induction ds generalizing t with
  | nil => simp [insertAll]
  | cons d ds ih =>
    have hrest : (t.insertAll (d :: ds)).variants id =
        ((t.insert d.1 d.2).insertAll ds).variants id :=
      rfl
    rw [hrest, ih, variants_insert]
    by_cases hid : d.1 = id
    · simp [hid]
    · simp [hid, Ne.symm hid]

/-- Afterwards the table knows the ids of the definitions, and what it knew before. -/
theorem contains_insertAll (t : FeatureTable) (ds : List (String × Definition)) (id : String) :
    (t.insertAll ds).contains id = (ds.any (·.1 = id) || t.contains id) := by
  induction ds generalizing t with
  | nil => simp [insertAll]
  | cons d ds ih =>
    have hrest : (t.insertAll (d :: ds)).contains id =
        ((t.insert d.1 d.2).insertAll ds).contains id :=
      rfl
    rw [hrest, ih, contains_insert, List.any_cons]
    by_cases hid : d.1 = id
    · simp [hid]
    · simp [hid, Ne.symm hid]

/-! ### What loading adds -/

/-- The variants of an entry are added up to the first that is no definition. -/
theorem exists_loadVariants_eq (id : String) (items : List Json.Value) :
    ∃ ds error, (∀ d ∈ ds, d.1 = id) ∧
      ∀ t, loadVariants id items t = (insertAll t ds, error) := by
  induction items with
  | nil => exact ⟨[], none, List.forall_mem_nil _, fun t => rfl⟩
  | cons v items ih =>
    obtain ⟨ds, error, hids, hload⟩ := ih
    cases hd : Definition.read v with
    | none =>
      refine ⟨[], some (.malformed id .json), List.forall_mem_nil _, fun t => ?_⟩
      rw [loadVariants, hd]
      rfl
    | some d =>
      refine ⟨(id, d) :: ds, error, List.forall_mem_cons.2 ⟨rfl, hids⟩, fun t => ?_⟩
      rw [loadVariants, hd]
      exact hload _

/-- Adds the variants of one entry of a file, whatever the entry is. -/
def loadEntry (id : String) (entry : Json.Value) (t : FeatureTable) :
    FeatureTable × Option FeatureError :=
  match entry with
  | .array items => loadVariants id items t
  | .object members => loadVariants id [.object members] t
  | other => (t, some (.malformed id (.notADefinition other.compact)))

theorem loadEntries_cons (kind : FeatureKind) (name : String) (entry : Json.Value)
    (entries : List (String × Json.Value)) (t : FeatureTable) :
    loadEntries kind ((name, entry) :: entries) t =
      match loadEntry (kind.id name) entry t with
      | (t, none) => loadEntries kind entries t
      | failed => failed := by
  cases entry <;> rfl

theorem exists_loadEntry_eq (id : String) (entry : Json.Value) :
    ∃ ds error, (∀ d ∈ ds, d.1 = id) ∧ ∀ t, loadEntry id entry t = (insertAll t ds, error) := by
  cases entry with
  | array items => exact exists_loadVariants_eq id items
  | object members => exact exists_loadVariants_eq id [.object members]
  | _ => exact ⟨[], _, List.forall_mem_nil _, fun t => rfl⟩

/-- The entries of a file are added up to the first bad one. -/
theorem exists_loadEntries_eq (kind : FeatureKind) (entries : List (String × Json.Value)) :
    ∃ ds error, (∀ d ∈ ds, ∃ name, d.1 = kind.id name) ∧
      ∀ t, loadEntries kind entries t = (insertAll t ds, error) := by
  induction entries with
  | nil => exact ⟨[], none, List.forall_mem_nil _, fun t => rfl⟩
  | cons e entries ih =>
    obtain ⟨name, entry⟩ := e
    obtain ⟨rest, restError, hrest, hloadRest⟩ := ih
    obtain ⟨ds, error, hids, hload⟩ := exists_loadEntry_eq (kind.id name) entry
    have hnamed : ∀ d ∈ ds, ∃ name, d.1 = kind.id name := fun d hd => ⟨name, hids d hd⟩
    cases error with
    | none =>
      refine ⟨ds ++ rest, restError, List.forall_mem_append.2 ⟨hnamed, hrest⟩, fun t => ?_⟩
      rw [loadEntries_cons, hload, insertAll_append]
      exact hloadRest _
    | some error =>
      refine ⟨ds, some error, hnamed, fun t => ?_⟩
      rw [loadEntries_cons, hload]

/-- **Loading a file** adds the same definitions to every table, all of the kind of the file, and
ends in the same way. -/
theorem exists_load_eq (kind : FeatureKind) (text : String) :
    ∃ ds error, (∀ d ∈ ds, ∃ name, d.1 = kind.id name) ∧
      ∀ t : FeatureTable, t.load kind text = (t.insertAll ds, error) := by
  unfold load
  cases Json.Value.ofText? text with
  | none => exact ⟨[], _, List.forall_mem_nil _, fun t => rfl⟩
  | some v =>
    cases v with
    | object entries => exact exists_loadEntries_eq kind entries
    -- Any other document is refused before anything is added.
    | _ => exact ⟨[], _, List.forall_mem_nil _, fun t => rfl⟩

/-- The table after files were loaded in turn, each of them as far as it could be. -/
def loadAll (t : FeatureTable) (files : List (FeatureKind × String)) : FeatureTable :=
  files.foldl (fun t file => (t.load file.1 file.2).1) t

/-- **Loading files** adds what each of them adds, in their order. -/
theorem exists_loadAll_eq :
    ∃ added : FeatureKind × String → List (String × Definition),
      (∀ file, ∀ d ∈ added file, ∃ name, d.1 = file.1.id name) ∧
        ∀ files t, loadAll t files = t.insertAll (files.flatMap added) := by
  choose added error hids hload using fun file : FeatureKind × String =>
    exists_load_eq file.1 file.2
  refine ⟨added, hids, fun files => ?_⟩
  induction files with
  | nil => exact fun t => rfl
  | cons file files ih =>
    intro t
    have hrest : t.loadAll (file :: files) = (t.load file.1 file.2).1.loadAll files := rfl
    rw [hrest, hload, ih, List.flatMap_cons, insertAll_append]

/-! ### Sound tables -/

/-- Every id of the table has a known prefix and at least one variant. -/
structure Sound (t : FeatureTable) : Prop where
  known : ∀ id, t.contains id = true →
    ∃ kind name, FeatureKind.splitId id = .ok (kind, name) ∧ id = FeatureKind.id kind name
  variants_ne_nil : ∀ id, t.contains id = true → t.variants id ≠ []

theorem sound_empty : Sound {} where
  known id h := by cases h
  variants_ne_nil id h := by cases h

/-- Definitions of ids with known prefixes leave a table sound. -/
theorem Sound.insertAll {t : FeatureTable} (h : t.Sound) {ds : List (String × Definition)}
    (hds : ∀ d ∈ ds, ∃ (kind : FeatureKind) (name : String), d.1 = kind.id name) :
    (t.insertAll ds).Sound := by
  constructor
  case known =>
    intro id hid
    rw [contains_insertAll, Bool.or_eq_true, List.any_eq_true] at hid
    rcases hid with ⟨d, hd, hdid⟩ | hid
    · obtain ⟨kind, name, hname⟩ := hds d hd
      obtain rfl : d.1 = id := by simpa using hdid
      exact ⟨kind, name, hname ▸ FeatureKind.splitId_id kind name, hname⟩
    · exact h.known id hid
  case variants_ne_nil =>
    intro id hid
    rw [contains_insertAll, Bool.or_eq_true, List.any_eq_true] at hid
    rw [variants_insertAll]
    rcases hid with ⟨d, hd, hdid⟩ | hid
    · have hmem : d.2 ∈ (ds.filter (·.1 = id)).map (·.2) :=
        List.mem_map_of_mem (List.mem_filter.2 ⟨hd, hdid⟩)
      exact List.append_ne_nil_of_right_ne_nil _ (List.ne_nil_of_mem hmem)
    · exact List.append_ne_nil_of_left_ne_nil (h.variants_ne_nil id hid) _

/-- **Loading keeps tables sound**, whatever the texts are and however far they could be loaded. -/
theorem Sound.loadAll {t : FeatureTable} (h : t.Sound) (files : List (FeatureKind × String)) :
    (t.loadAll files).Sound := by
  obtain ⟨added, hids, hload⟩ := exists_loadAll_eq
  rw [hload]
  refine h.insertAll fun d hd => ?_
  obtain ⟨file, -, hd⟩ := List.mem_flatMap.1 hd
  exact ⟨file.1, hids file d hd⟩

end FeatureTable

/-! ### Queries -/

namespace Resolver

variable {r : Resolver} {path root : String}

/-- Where everything that is defined has a known prefix, gathering answers. -/
theorem exists_gather_eq_ok {c : Closure} {ids : List String}
    (h : ∀ id ∈ ids, ∀ d, c.definition? id = some d →
      ∃ kindName, FeatureKind.splitId id = .ok kindName) (b : Bounds) :
    ∃ bounds, r.gather c ids b = .ok bounds := by
  induction ids generalizing b with
  | nil => exact ⟨some b, rfl⟩
  | cons id ids ih =>
    obtain ⟨hid, hids⟩ := List.forall_mem_cons.1 h
    unfold gather
    cases hd : c.definition? id with
    | none => exact ⟨none, rfl⟩
    | some d =>
      obtain ⟨kindName, hsplit⟩ := hid d hd
      by_cases hgate : (r.options.gate? d).isSome = true
      · exact ⟨none, by simp [hgate]⟩
      · simp only [hgate, Bounds.absorb, hsplit]
        exact ih hids _

/-- A query of a sound table fails by an ambiguity or by a cycle. -/
theorem query_error (h : r.table.Sound) {e : FeatureError} (he : r.query path = .error e) :
    (∃ id n, e = .ambiguous id path n) ∨ ∃ chain, e = .cycle chain := by
  cases hroot : r.root? path with
  | none =>
    rw [query_eq_of_root_eq_none hroot] at he
    cases he
  | some root =>
    rcases Closure.collect_cases r.table path root with
      ⟨c, hc, hcomplete⟩ | ⟨id, e', -, hresolve, hc⟩ | ⟨ids, hc, -⟩
    · rw [query_eq_of_collect hroot hc] at he
      rcases bind_eq_error_iff.1 he with hcycle | ⟨_, -, he⟩
      · obtain ⟨chain, rfl, -⟩ := hcomplete.isCycle_of_checkAcyclic hcycle
        exact .inr ⟨chain, rfl⟩
      · -- What is gathered is defined, so the table knows it.
        have hknown : ∀ id ∈ c.order, ∀ d, c.definition? id = some d →
            ∃ kindName, FeatureKind.splitId id = .ok kindName := by
          intro id hid d hd
          have hresolve := hcomplete.resolve_eq hid
          rw [hd] at hresolve
          obtain ⟨kind, name, hsplit, -⟩ := h.known id (FeatureTable.contains_of_resolve? hresolve)
          exact ⟨(kind, name), hsplit⟩
        obtain ⟨bounds, hbounds⟩ := exists_gather_eq_ok (r := r) hknown {}
        rw [hbounds] at he
        cases he
    · obtain ⟨id', n, rfl⟩ := FeatureTable.resolve?_error hresolve
      rw [query_eq_of_root hroot, hc] at he
      exact .inl ⟨id', n, (Except.error.inj he).symm⟩
    · rw [query_eq_of_root hroot, hc] at he
      exact .inr ⟨ids, (Except.error.inj he).symm⟩

/-- **What a table that was loaded can do to a query.** After any files were loaded in turn, each of
any kind and as far as it could be, every id of the table has a known prefix and at least one
variant. With any options and any history, the query of any path answers, or it fails by an
ambiguity or by a cycle. -/
theorem query_loaded (files : List (FeatureKind × String)) :
    (FeatureTable.loadAll {} files).Sound ∧
    ∀ options history path,
      let r : Resolver := ⟨FeatureTable.loadAll {} files, options, history⟩
      (∃ answer, r.query path = .ok answer) ∨
      (∃ id n, r.query path = .error (.ambiguous id path n)) ∨
      ∃ chain, r.query path = .error (.cycle chain) := by
  have hsound : (FeatureTable.loadAll {} files).Sound := FeatureTable.sound_empty.loadAll files
  refine ⟨hsound, fun options history path => ?_⟩
  intro r
  cases hquery : r.query path with
  | ok answer => exact .inl ⟨answer, rfl⟩
  | error e =>
    rcases query_error (r := r) hsound hquery with ⟨id, n, rfl⟩ | ⟨chain, rfl⟩
    · exact .inr (.inl ⟨id, n, rfl⟩)
    · exact .inr (.inr ⟨chain, rfl⟩)

end Resolver

end ApiTypings
