import ApiTypings.Proofs.Announcements
import ApiTypings.Proofs.Declared
import ApiTypings.Proofs.Layout
import ApiTypings.Proofs.Repetitions
import ApiTypings.Proofs.StableOrder
/-!
# Exports of escaped names

A name that needs an alias is declared under it and exported under its own name. Main statement
(`Renderer.render_exports`): what a rendered file exports are the visible members of its namespaces
that need an alias, each in the block of its namespace, and the segments of the names of the
namespaces that need one, each once, in a block for the segments before it or next to the blocks if
there are none.

The exports of the segments are gathered from the names of all namespaces (`namespaceAliases`) and
written by the namespace that they stand in (`scopedGroups`). Neither loses or repeats any of them:
`Document.segmentExports` lists them as they are written.
-/

namespace ApiTypings

/-! ### Gathering -/

section

variable {α κ : Type} [DecidableEq κ] {key : α → κ} {keys : List κ} {xs : List α}

/-- The elements by their keys. -/
theorem mem_flatMap_filter {a : α} :
    (a ∈ keys.flatMap fun k => xs.filter (key · = k)) ↔ a ∈ xs ∧ key a ∈ keys := by
  simp [List.mem_flatMap, List.mem_filter, and_comm]

/-- By distinct keys every element comes once. -/
theorem nodup_flatMap_filter (hkeys : keys.Nodup) (hxs : xs.Nodup) :
    (keys.flatMap fun k => xs.filter (key · = k)).Nodup := by
  refine List.nodup_flatMap.2 ⟨fun k _ => hxs.filter _, hkeys.imp fun hne => ?_⟩
  intro a ha hb
  have ha : key a = _ := of_decide_eq_true (List.mem_filter.1 ha).2
  have hb : key a = _ := of_decide_eq_true (List.mem_filter.1 hb).2
  exact hne (ha.symm.trans hb)

end

/-! ### Segments -/

/-- A segment of a dotted name that needs an alias is exported from the namespace that the segments
before it name, each of them escaped. -/
def ScopedAlias.ExportsSegmentOf (a : ScopedAlias) (name : String) : Prop :=
  ∃ before segment after, segments name = before ++ segment :: after ∧
    needsEscape segment = true ∧
      a = ⟨".".intercalate (before.map escape), ⟨escape segment, segment⟩⟩

theorem mem_aliasesOf {names : List String} {a : Alias} :
    a ∈ aliasesOf names ↔ ∃ name ∈ names, needsEscape name = true ∧ a = ⟨escape name, name⟩ := by
  simp only [aliasesOf, List.mem_map, List.mem_filter, and_assoc, eq_comm]

theorem aliasesOf_perm {names names' : List String} (h : names.Perm names') :
    (aliasesOf names).Perm (aliasesOf names') :=
  (h.filter _).map _

/-- The segments from one on, behind others that are escaped already. -/
theorem mem_segmentAliases {start rest : List String} {a : ScopedAlias} :
    a ∈ segmentAliases start rest ↔ ∃ before segment after, rest = before ++ segment :: after ∧
      needsEscape segment = true ∧
        a = ⟨".".intercalate (start ++ before.map escape), ⟨escape segment, segment⟩⟩ := by
  induction rest generalizing start with
  | nil => simp [segmentAliases]
  | cons s rest ih =>
    rw [segmentAliases, List.mem_append, ih]
    constructor
    · rintro (h | ⟨before, segment, after, rfl, hneeds, rfl⟩)
      · obtain ⟨entry, hentry, rfl⟩ := List.mem_map.1 h
        obtain ⟨segment, hsegment, hneeds, rfl⟩ := mem_aliasesOf.1 hentry
        obtain rfl : segment = s := List.mem_singleton.1 hsegment
        exact ⟨[], segment, rest, rfl, hneeds, by simp⟩
      · exact ⟨s :: before, segment, after, rfl, hneeds, by simp⟩
    · rintro ⟨before, segment, after, heq, hneeds, rfl⟩
      cases before with
      | nil =>
        obtain ⟨rfl, rfl⟩ := List.cons.inj heq
        refine .inl (List.mem_map.2 ⟨⟨escape s, s⟩, mem_aliasesOf.2 ?_, by simp⟩)
        exact ⟨s, List.mem_singleton_self s, hneeds, rfl⟩
      | cons first before =>
        obtain ⟨rfl, rfl⟩ := List.cons.inj heq
        exact .inr ⟨before, segment, after, rfl, hneeds, by simp⟩

/-- **The exports that names need** are those of their segments. -/
theorem mem_namespaceAliases {names : List String} {a : ScopedAlias} :
    a ∈ namespaceAliases names ↔ ∃ name ∈ names, a.ExportsSegmentOf name := by
  unfold namespaceAliases
  rw [mem_foldl_once, or_iff_right List.not_mem_nil, List.mem_flatMap]
  exact exists_congr fun name => and_congr_right fun _ => mem_segmentAliases

theorem nodup_namespaceAliases (names : List String) : (namespaceAliases names).Nodup := by
  unfold namespaceAliases
  rw [foldl_once, List.nil_append]
  exact nodup_eraseDups _

/-! ### Groups -/

/-- The exports of segments in a document, as they are written: by the namespace that they stand in,
and then those next to the blocks. -/
def Document.segmentExports (d : Document) : List ScopedAlias :=
  d.scopedAliases.flatMap (fun group => group.2.map (ScopedAlias.mk group.1))
    ++ d.aliases.map (ScopedAlias.mk "")

/-- The namespaces that have exports of segments, in the order of their names. -/
def exportScopes (aliases : List ScopedAlias) : List String :=
  (NameSet.ofList ((aliases.map (·.scope)).filter (· ≠ ""))).toList

theorem map_filter_scope (aliases : List ScopedAlias) (scope : String) :
    ((aliases.filter (·.scope = scope)).map (·.entry)).map (ScopedAlias.mk scope) =
      aliases.filter (·.scope = scope) := by
  rw [List.map_map]
  refine (List.map_congr_left fun a ha => ?_).trans (List.map_id _)
  have hscope : a.scope = scope := of_decide_eq_true (List.mem_filter.1 ha).2
  rw [← hscope]
  rfl

section

variable {o : RenderOptions} {names : List String} {blocks : List Block} {d : Document}

/-- A document has the exports of these names. -/
structure Document.HasExportsOf (d : Document) (names : List String) : Prop where
  groups_eq : d.scopedAliases = scopedGroups (namespaceAliases names)
  leading_eq : d.aliases = ((namespaceAliases names).filter (·.scope = "")).map (·.entry)

/-- The exports of a document are those of the names, by the namespace that they stand in. -/
theorem Document.HasExportsOf.segmentExports_eq (h : d.HasExportsOf names) :
    d.segmentExports = (exportScopes (namespaceAliases names) ++ [""]).flatMap fun scope =>
      (namespaceAliases names).filter (·.scope = scope) := by
  rw [List.flatMap_append, List.flatMap_singleton, segmentExports, h.groups_eq, h.leading_eq,
    map_filter_scope]
  congr 1
  rw [scopedGroups, List.flatMap_map]
  exact List.flatMap_congr fun scope _ => map_filter_scope _ scope

theorem mem_exportScopes {aliases : List ScopedAlias} {scope : String} :
    scope ∈ exportScopes aliases ↔ scope ≠ "" ∧ ∃ a ∈ aliases, a.scope = scope := by
  have hmem : scope ∈ exportScopes aliases ↔
      scope ∈ NameSet.ofList ((aliases.map (·.scope)).filter (· ≠ "")) := Iff.rfl
  rw [hmem, NameSet.mem_ofList, List.mem_filter, List.mem_map, and_comm]
  simp

/-- The scopes are distinct, and none of them is empty. -/
theorem nodup_exportScopes_append (aliases : List ScopedAlias) :
    (exportScopes aliases ++ [""]).Nodup := by
  have hscopes : (exportScopes aliases).Pairwise (· < ·) := NameSet.ascending _
  have hnodup : (exportScopes aliases).Nodup := hscopes.imp String.ne_of_lt
  refine List.nodup_append_comm.1 (List.nodup_cons.2 ⟨fun h => ?_, hnodup⟩)
  exact (mem_exportScopes.1 h).1 rfl

/-- **No export is lost**, and none comes from anywhere else. -/
theorem Document.HasExportsOf.mem_iff (h : d.HasExportsOf names) (a : ScopedAlias) :
    a ∈ d.segmentExports ↔ ∃ name ∈ names, a.ExportsSegmentOf name := by
  rw [h.segmentExports_eq, mem_flatMap_filter, mem_namespaceAliases, and_iff_left_of_imp]
  intro hname
  by_cases hscope : a.scope = ""
  · exact List.mem_append_right _ (List.mem_singleton.2 hscope)
  · exact List.mem_append_left _
      (mem_exportScopes.2 ⟨hscope, a, mem_namespaceAliases.2 hname, rfl⟩)

/-- **No export is repeated.** -/
theorem Document.HasExportsOf.nodup (h : d.HasExportsOf names) : d.segmentExports.Nodup := by
  rw [h.segmentExports_eq]
  exact nodup_flatMap_filter (nodup_exportScopes_append _) (nodup_namespaceAliases names)

/-- Every group is a block for another namespace, and has an export. -/
theorem Document.HasExportsOf.groups (h : d.HasExportsOf names) :
    (d.scopedAliases.map (·.1)).Pairwise (· < ·) ∧
      ∀ group ∈ d.scopedAliases, group.1 ≠ "" ∧ group.2 ≠ [] := by
  have hscopes : d.scopedAliases.map (·.1) = exportScopes (namespaceAliases names) := by
    rw [h.groups_eq, scopedGroups, List.map_map]
    exact List.map_id _
  rw [hscopes]
  refine ⟨NameSet.ascending _, fun group hgroup => ?_⟩
  rw [h.groups_eq] at hgroup
  obtain ⟨scope, hscope, rfl⟩ := List.mem_map.1 hgroup
  obtain ⟨hne, a, ha, rfl⟩ := mem_exportScopes.1 hscope
  refine ⟨hne, List.ne_nil_of_mem (List.mem_map_of_mem (a := a) (List.mem_filter.2 ⟨ha, ?_⟩))⟩
  exact decide_eq_true rfl

end

/-! ### Where exports are written -/

/-- The lines of exports. -/
def exportsText (unit : String) (level : Nat) (aliases : List Alias) : String :=
  String.join (aliases.map fun a => indentation unit level
    ++ ("export \x7b " ++ a.internal ++ " as " ++ a.external ++ " \x7d;") ++ "\n")

/-- The line that opens a namespace. -/
def openingLine (unit : String) (level : Nat) (nested : Bool) (name : String) : String :=
  indentation unit level ++ (namespaceKeyword nested ++ name ++ " \x7b") ++ "\n"

/-- The line that closes it. -/
def closingLine (unit : String) (level : Nat) : String :=
  indentation unit level ++ "\x7d" ++ "\n"

/-- What is written of a block before its exports: the comment, the line that opens it, the
declarations and, if any exports follow them, an empty line. -/
def Block.front (b : Block) (nested : Bool) (unit : String) (level : Nat) : String :=
  String.join (b.doc.lines.map fun line => indentation unit level ++ line ++ "\n")
    ++ openingLine unit level nested b.name
    ++ "\n".intercalate ((b.paragraphs.map fun ss =>
      Writer.written (Statement.writeAll ss) unit (level + 1))
        ++ if b.aliases.isEmpty then [] else [""])

theorem intercalate_append_last (sep : String) (xs : List String) (last : String) :
    sep.intercalate (xs ++ [last]) = sep.intercalate (xs ++ [""]) ++ last := by
  induction xs with
  | nil => simp
  | cons x xs ih =>
    cases xs with
    | nil => simp [String.append_assoc]
    | cons y ys =>
      simp only [List.cons_append, String.intercalate_cons_cons] at ih ⊢
      rw [ih, ← String.append_assoc]

open Writer in
theorem written_aliasParagraphs (aliases : List Alias) (unit : String) (level : Nat) :
    ((aliasParagraphs aliases).map fun f => written f unit level) =
      if aliases.isEmpty then [] else [exportsText unit level aliases] := by
  unfold aliasParagraphs
  split
  · rfl
  · rw [List.map_singleton, (Alias.writes_all aliases).written_eq]
    rfl

/-- Exports behind paragraphs stand behind an empty line, if there are any of both. -/
theorem intercalate_exportsText (paragraphs : List String) (aliases : List Alias) (unit : String)
    (level : Nat) :
    "\n".intercalate
        (paragraphs ++ if aliases.isEmpty then [] else [exportsText unit level aliases]) =
      "\n".intercalate (paragraphs ++ if aliases.isEmpty then [] else [""])
        ++ exportsText unit level aliases := by
  cases aliases with
  | nil => exact String.append_empty.symm
  | cons a aliases => exact intercalate_append_last "\n" paragraphs _

open Writer in
/-- **The exports of a block** are the last that stands in it. -/
theorem Block.written_eq (b : Block) (nested : Bool) (unit : String) (level : Nat) :
    written (b.write nested) unit level =
      b.front nested unit level ++ exportsText unit (level + 1) b.aliases
        ++ closingLine unit level := by
  have hwrites := (writes_lines b.doc.lines).comp ((Writes.paragraphs fun _ =>
    b.writes_of_mem_paragraphs).block (namespaceKeyword nested ++ b.name))
  have hexports := intercalate_exportsText
    (b.paragraphs.map fun ss => written (Statement.writeAll ss) unit (level + 1)) b.aliases unit
      (level + 1)
  rw [← written_aliasParagraphs] at hexports
  refine (congrFun₂ hwrites.written_eq unit level).trans ?_
  simp only [List.map_append, List.map_map, Function.comp_def, hexports]
  simp only [front, openingLine, closingLine, String.append_assoc]

/-- The text of a document with its exports set apart. -/
def Document.textWithExports (d : Document) (unit : String) : String :=
  let level := depth d.root
  let nested := d.root.isSome
  header d.root
    ++ "\n".intercalate
      (d.blocks.map (fun b => b.front nested unit level ++ exportsText unit (level + 1) b.aliases
          ++ closingLine unit level)
        ++ d.scopedAliases.map (fun group => openingLine unit level nested group.1
          ++ exportsText unit (level + 1) group.2 ++ closingLine unit level)
        ++ if d.aliases.isEmpty then [] else [exportsText unit level d.aliases])
    ++ footer d.root

open Writer in
theorem written_group (nested : Bool) (group : String × List Alias) (unit : String) (level : Nat) :
    written (·.block (namespaceKeyword nested ++ group.1) (Alias.writeAll group.2)) unit level =
      openingLine unit level nested group.1 ++ exportsText unit (level + 1) group.2
        ++ closingLine unit level :=
  congrFun₂ ((Alias.writes_all group.2).block _).written_eq unit level

/-- **Where the exports stand** in the text of a document. -/
theorem Document.text_eq_textWithExports (d : Document) (unit : String) :
    d.text unit = d.textWithExports unit := by
  rw [text_eq, parts, List.map_append, List.map_append, List.map_map, List.map_map,
    written_aliasParagraphs]
  simp only [Function.comp_def, Block.written_eq, written_group]
  rfl

/-! ### Documents -/

/-- The block of a namespace has its escaped name and the exports of its visible members. -/
structure Block.HasExportsOf (ns : Namespace) (b : Block) : Prop where
  name_eq : b.name = escapeDotted ns.name
  aliases_perm : b.aliases.Perm (aliasesOf ((Property.visible ns.members).map (·.name)))

open Announcing in
theorem hasExportsOf_declareNamespace (options : RenderOptions) (ns : Namespace) :
    Yields (declareNamespace options ns) (Block.HasExportsOf ns) := by
  unfold declareNamespace declareMembers
  refine Yields.of_bind fun _ => ?_
  dsimp only
  refine Yields.of_bind fun _ => Yields.of_bind fun _ => Yields.of_bind fun _ => yields_pure ?_
  exact ⟨rfl, aliasesOf_perm ((memberGroups_perm options.sortMembers ns.members).map _)⟩

open Announcing in
theorem hasExportsOf_declareNamespaces (options : RenderOptions) (namespaces : List Namespace) :
    Yields (declareNamespaces options namespaces) fun d =>
      List.Forall₂ Block.HasExportsOf (visibleNamespaces namespaces) d.blocks ∧
        d.HasExportsOf ((visibleNamespaces namespaces).map (·.name)) :=
  (Yields.forall₂_mapM fun ns _ => hasExportsOf_declareNamespace options ns).bind_pure
    fun _ hblocks => ⟨hblocks, rfl, rfl⟩

namespace Renderer

/-- **Every escaped name is exported once, where it belongs.** Whenever namespaces render, what is
rendered is the text of a document with these exports, each of an alias by the name it stands for:

* those of the visible members of a namespace that need an alias, in the block of the namespace;
* those of the segments of the names of visible namespaces that need an alias, each once, from the
  namespace that the escaped segments before it name.

In the text the exports of a block are the last lines in it. Those of segments stand in blocks of
their own, one for every namespace that they are exported from, and next to the blocks if it has no
name. -/
theorem render_exports {r : Renderer} {namespaces : List Namespace} {text : String}
    (h : (r.render namespaces).text = .ok text) :
    ∃ document : Document,
      (declareNamespaces r.options namespaces r.state).result = .ok document ∧
        text = document.textWithExports r.options.indent ∧
        List.Forall₂ Block.HasExportsOf (visibleNamespaces namespaces) document.blocks ∧
        document.segmentExports.Nodup ∧
        (∀ a, a ∈ document.segmentExports ↔
          ∃ ns ∈ visibleNamespaces namespaces, a.ExportsSegmentOf ns.name) ∧
        (document.scopedAliases.map (·.1)).Pairwise (· < ·) ∧
        ∀ group ∈ document.scopedAliases, group.1 ≠ "" ∧ group.2 ≠ [] := by
  obtain ⟨document, hdocument, rfl⟩ := map_eq_ok_iff.1 h
  obtain ⟨hblocks, hexports⟩ := hasExportsOf_declareNamespaces r.options namespaces r.state document
    hdocument
  refine ⟨document, hdocument, document.text_eq_textWithExports _, hblocks, hexports.nodup,
    fun a => ?_, hexports.groups⟩
  rw [hexports.mem_iff]
  simp only [List.mem_map, exists_exists_and_eq_and]

/-- A namespace with a function that has two overloads and a reserved name. -/
def deleting (name : String) : Namespace where
  name := name
  members := [
    .plain "delete" (.function [{ optional := true, name := "scope", type := .any },
      .plain "key" .any] none none false),
    .plain "count" .any]

/-- Namespaces with reserved segments, one of them twice. -/
def reservedNamespaces : List Namespace :=
  [deleting "new.in.do", deleting "new.in", deleting "new.in"]

/-- The function is exported once in each of the three blocks, and each segment once. -/
theorem render_reservedNamespaces :
    ∃ text document,
      (render {} reservedNamespaces).text = .ok text ∧
      (declareNamespaces {} reservedNamespaces {}).result = .ok document ∧
      document.blocks.map (fun b => (b.name, b.aliases)) =
        [("_new._in", [⟨"_delete", "delete"⟩]), ("_new._in", [⟨"_delete", "delete"⟩]),
          ("_new._in._do", [⟨"_delete", "delete"⟩])] ∧
      document.segmentExports =
        [⟨"_new", "_in", "in"⟩, ⟨"_new._in", "_do", "do"⟩, ⟨"", "_new", "new"⟩] ∧
      document.segmentExports.Nodup ∧
      ∀ a, a ∈ document.segmentExports ↔
        ∃ ns ∈ visibleNamespaces reservedNamespaces, a.ExportsSegmentOf ns.name := by
  have hvisible : visibleNamespaces reservedNamespaces =
      (reservedNamespaces.filter Namespace.hasVisibleMembers).insertionSort
        fun a b => keyLE Namespace.name a b = true :=
    mergeSort_eq_insertionSort Namespace.name _
  have hexports : (declareNamespaces {} reservedNamespaces {}).result.map
      (fun d => (d.blocks.map (fun b => (b.name, b.aliases)), d.segmentExports)) =
        .ok ([("_new._in", [⟨"_delete", "delete"⟩]), ("_new._in", [⟨"_delete", "delete"⟩]),
            ("_new._in._do", [⟨"_delete", "delete"⟩])],
          [⟨"_new", "_in", "in"⟩, ⟨"_new._in", "_do", "do"⟩, ⟨"", "_new", "new"⟩]) := by
    unfold declareNamespaces
    rw [hvisible]
    decide +kernel
  obtain ⟨document, hdocument, hpair⟩ := map_eq_ok_iff.1 hexports
  obtain ⟨hblocks, hsegments⟩ := Prod.mk.inj hpair
  have htext : (render {} reservedNamespaces).text = .ok (document.text defaultIndent) :=
    map_eq_ok_iff.2 ⟨document, hdocument, rfl⟩
  obtain ⟨document', hdocument', -, -, hnodup, hmem, -⟩ := render_exports htext
  obtain rfl : document' = document := Except.ok.inj (hdocument'.symm.trans hdocument)
  exact ⟨_, document', htext, hdocument', hblocks, hsegments, hnodup, hmem⟩

end Renderer

end ApiTypings
