import ApiTypings.Proofs.Layout
import ApiTypings.Proofs.VisibleSymbols
import Mathlib.Data.List.Perm.Basic
/-!
# Compiling namespace by namespace

Every namespace is compiled by itself: what it contributes to a declaration file is a `Part`, its
block and its symbols, and no other namespace has a say in it (`Compiler.part`). A file is put
together from the parts in the order of the names (`RenderOptions.file`), and only the exports of
names that need an alias are gathered from all of them.
-/

namespace ApiTypings

/-! ### Parts and files -/

/-- What a namespace contributes to a declaration file. -/
structure Part where
  /-- The name of the namespace. -/
  name : String
  /-- The text of its block. -/
  block : String
  symbols : List DeclaredSymbol
  deriving DecidableEq, Repr

namespace RenderOptions

/-- The document for the blocks of namespaces with these names. -/
def document (o : RenderOptions) (names : List String) (blocks : List Block) : Document :=
  let aliases := namespaceAliases names
  { root := o.root
    blocks := blocks
    scopedAliases := scopedGroups aliases
    aliases := (aliases.filter (·.scope = "")).map (·.entry) }

/-- A part of a document by itself. -/
def paragraphText (o : RenderOptions) (f : Writer → Writer) : String :=
  Writer.written f o.indent (Document.depth o.root)

/-- The text of a block by itself. -/
def blockText (o : RenderOptions) (b : Block) : String :=
  o.paragraphText (b.write o.root.isSome)

/-- The exports that the names of namespaces need, group by group. -/
def exports (o : RenderOptions) (names : List String) : List String :=
  (o.document names []).parts.map o.paragraphText

/-- What stands in a file that is made of these parts: their blocks, and the exports behind them. -/
def paragraphs (o : RenderOptions) (parts : List Part) : List String :=
  parts.map (·.block) ++ o.exports (parts.map (·.name))

/-- The declaration file that is made of these parts, with the symbols. An empty line stands between
any two paragraphs, each of which ends with the end of a line. -/
def file (o : RenderOptions) (parts : List Part) : String × SymbolTable :=
  (Document.header o.root ++ "\n".intercalate (o.paragraphs parts) ++ Document.footer o.root,
    .ofList (parts.flatMap (·.symbols)))

variable {o : RenderOptions}

theorem parts_document (names : List String) (blocks : List Block) :
    (o.document names blocks).parts =
      blocks.map (Block.write o.root.isSome) ++ (o.document names []).parts := by
  unfold Document.parts
  rw [List.append_assoc, List.append_assoc]
  rfl

/-- The text of a document is that of a file. -/
theorem text_document (names : List String) (blocks : List Block) :
    (o.document names blocks).text o.indent =
      Document.header o.root ++ "\n".intercalate (blocks.map o.blockText ++ o.exports names)
        ++ Document.footer o.root := by
  rw [Document.text_eq, parts_document, List.map_append, List.map_map]
  rfl

end RenderOptions

namespace Compiler

/-- The block that is declared for a namespace. -/
def declaredBlock? (c : Compiler) (ns : Namespace) : Option Block :=
  (ns.prune c.resolver).toOption.bind fun n => (declareNamespace c.render n {}).result.toOption

/-- What a namespace contributes to a file: its block, as it is declared after pruning, and its
visible symbols. There is no block if it cannot be compiled. -/
def part (c : Compiler) (ns : Namespace) : Part where
  name := ns.name
  block := (c.declaredBlock? ns).elim "" c.render.blockText
  symbols := ns.visibleSymbols c.resolver c.render.sortMembers

/-- A namespace can be compiled: it can be pruned, and what is left can be declared if there is
anything to declare. -/
def Compiles (c : Compiler) (ns : Namespace) : Prop :=
  ∃ n, ns.prune c.resolver = .ok n ∧
    (c.resolver.Declares ns → ∃ b, (declareNamespace c.render n {}).result = .ok b)

variable {c : Compiler} {namespaces : List Namespace}

/-! ### The blocks of a document -/

/-- The block of a part is the text of the block that is declared. -/
theorem block_part {ns n : Namespace} {b : Block} (hn : ns.prune c.resolver = .ok n)
    (hb : (declareNamespace c.render n {}).result = .ok b) :
    (c.part ns).block = c.render.blockText b := by
  have hblock : c.declaredBlock? ns = some b := by
    unfold declaredBlock?
    rw [hn]
    show (declareNamespace c.render n {}).result.toOption = some b
    rw [hb]
    rfl
  unfold part
  rw [hblock]
  rfl

/-- Declaring namespaces makes the document of the blocks that each of them is declared with. -/
theorem result_declareNamespaces_eq_ok_iff {options : RenderOptions} {document : Document} :
    (declareNamespaces options namespaces {}).result = .ok document ↔ ∃ blocks,
      List.Forall₂ (fun n b => (declareNamespace options n {}).result = .ok b)
        (visibleNamespaces namespaces) blocks ∧
          options.document ((visibleNamespaces namespaces).map (·.name)) blocks = document := by
  unfold declareNamespaces
  rw [Announcing.result_bind_eq_ok_iff]
  refine exists_congr fun blocks => and_congr ?_ ?_
  · exact Announcing.Hears.result_mapM_eq_ok_iff (hears_declareNamespace options)
  · exact ⟨fun h => by cases h; rfl, fun h => h ▸ rfl⟩

/-- Namespaces can be compiled together if each of them can be compiled. -/
theorem exists_compile_iff :
    (∃ file, c.compile namespaces = .ok file) ↔ ∀ ns ∈ namespaces, c.Compiles ns := by
  constructor
  · rintro ⟨⟨text, table⟩, h⟩ ns hns
    obtain ⟨pruned, document, hpruned, hdocument, -, -⟩ := compile_eq_ok_iff.1 h
    obtain ⟨blocks, hblocks, -⟩ := result_declareNamespaces_eq_ok_iff.1 hdocument
    obtain ⟨n, hn, hprune⟩ := exists_right_of_mem hpruned hns
    refine ⟨n, hprune, fun hdeclares => ?_⟩
    have hvisible : n ∈ visibleNamespaces pruned := List.mem_mergeSort.2
      (List.mem_filter.2 ⟨hn, (Namespace.kept_of_prune hprune).1.2 hdeclares⟩)
    obtain ⟨b, -, hb⟩ := exists_right_of_mem hblocks hvisible
    exact ⟨b, hb⟩
  · intro hall
    obtain ⟨pruned, hpruned⟩ := exists_forall₂_iff.2 fun ns hns =>
      (hall ns hns).imp fun n hn => hn.1
    have hdeclared : ∀ n ∈ visibleNamespaces pruned,
        ∃ b, (declareNamespace c.render n {}).result = .ok b := by
      intro n hn
      obtain ⟨hn, hvisible⟩ := List.mem_filter.1 (List.mem_mergeSort.1 hn)
      obtain ⟨ns, hns, hprune⟩ := exists_left_of_mem hpruned hn
      obtain ⟨n', hprune', hblock⟩ := hall ns hns
      obtain rfl : n = n' := Except.ok.inj (hprune.symm.trans hprune')
      exact hblock ((Namespace.kept_of_prune hprune).1.1 hvisible)
    obtain ⟨blocks, hblocks⟩ := exists_forall₂_iff.2 hdeclared
    exact ⟨_, compile_eq_ok_iff.2 ⟨pruned, _, hpruned,
      result_declareNamespaces_eq_ok_iff.2 ⟨blocks, hblocks, rfl⟩, rfl, rfl⟩⟩

/-- What a compilation makes is put together from the parts of the namespaces that are declared. -/
theorem compile_eq_file {file : String × SymbolTable} (h : c.compile namespaces = .ok file) :
    file = c.render.file ((c.resolver.declared namespaces).map c.part) := by
  obtain ⟨text, table⟩ := file
  obtain ⟨pruned, document, hpruned, hdocument, rfl, rfl⟩ := compile_eq_ok_iff.1 h
  rw [(hears_declareNamespaces c.render pruned).symbols_eq document hdocument,
    Resolver.symbols_declared c.render.sortMembers hpruned]
  obtain ⟨blocks, hblocks, rfl⟩ := result_declareNamespaces_eq_ok_iff.1 hdocument
  have hkept := Resolver.forall₂_declared hpruned
  have hnames : (visibleNamespaces pruned).map (·.name) =
      (c.resolver.declared namespaces).map (·.name) :=
    map_eq_of_forall₂ hkept fun ns _ n hn => hn.2.name_eq
  have htexts : blocks.map c.render.blockText =
      (c.resolver.declared namespaces).map fun ns => (c.part ns).block := by
    exact map_eq_of_forall₂ (forall₂_comp hkept hblocks fun ns n b hn hb => block_part hn.1 hb)
      fun ns _ b hb => hb.symm
  unfold RenderOptions.file RenderOptions.paragraphs
  rw [RenderOptions.text_document, hnames, htexts, List.map_map, List.map_map, List.flatMap_map]
  rfl

/-- A compilation succeeds if each namespace can be compiled, and makes a file of the parts. -/
theorem compile_eq_ok_iff_file {file : String × SymbolTable} :
    c.compile namespaces = .ok file ↔ (∀ ns ∈ namespaces, c.Compiles ns) ∧
      file = c.render.file ((c.resolver.declared namespaces).map c.part) := by
  constructor
  · exact fun h => ⟨exists_compile_iff.1 ⟨file, h⟩, compile_eq_file h⟩
  · rintro ⟨hall, rfl⟩
    obtain ⟨file, h⟩ := exists_compile_iff.2 hall
    rw [h, compile_eq_file h]

/-- Everything that is put together ends with the end of a line. -/
theorem endsLine_of_mem_paragraphs (hall : ∀ ns ∈ namespaces, c.Compiles ns) {s : String}
    (hs : s ∈ c.render.paragraphs ((c.resolver.declared namespaces).map c.part)) : EndsLine s := by
  rcases List.mem_append.1 hs with hs | hs
  · obtain ⟨p, hp, rfl⟩ := List.mem_map.1 hs
    obtain ⟨ns, hns, rfl⟩ := List.mem_map.1 hp
    obtain ⟨hns, hdeclares⟩ := Resolver.mem_declared_iff.1 hns
    obtain ⟨n, hn, hblock⟩ := hall ns hns
    obtain ⟨b, hb⟩ := hblock hdeclares
    rw [block_part hn hb]
    exact (b.paragraph _).endsLine _ _
  · obtain ⟨f, hf, rfl⟩ := List.mem_map.1 hs
    exact (Document.paragraph_of_mem_parts hf).endsLine _ _

/-! ### One namespace, other orders, and more namespaces -/

theorem declared_singleton (r : Resolver) (ns : Namespace) :
    r.declared [ns] = if r.Declares ns then [ns] else [] := by
  unfold Resolver.declared
  simp only [List.filter_cons, List.filter_nil, decide_eq_true_iff]
  split
  · exact List.mergeSort_singleton ns
  · exact List.mergeSort_nil

/-- With distinct names the order of the namespaces does not matter. -/
theorem compile_of_perm {namespaces' : List Namespace} {file : String × SymbolTable}
    (hperm : namespaces.Perm namespaces') (hnodup : (namespaces.map (·.name)).Nodup)
    (h : c.compile namespaces = .ok file) : c.compile namespaces' = .ok file := by
  obtain ⟨hall, rfl⟩ := compile_eq_ok_iff_file.1 h
  have hdeclared : c.resolver.declared namespaces = c.resolver.declared namespaces' :=
    mergeSort_eq_of_perm (hperm.filter _) (hnodup.sublist (List.filter_sublist.map _))
  rw [hdeclared]
  exact compile_eq_ok_iff_file.2 ⟨fun ns hns => hall ns (hperm.mem_iff.2 hns), rfl⟩

/-- Texts in another order give the same namespaces in another order. -/
theorem exists_parse_of_perm {texts texts' : List String} (hperm : texts.Perm texts')
    (h : parse texts = .ok namespaces) :
    ∃ namespaces', parse texts' = .ok namespaces' ∧ namespaces.Perm namespaces' := by
  unfold parse at h ⊢
  obtain ⟨lists, hlists, rfl⟩ := map_eq_ok_iff.1 (mapError_eq_ok_iff.1 h)
  obtain ⟨lists', hlists', hperm'⟩ := exists_mapM_of_perm hperm hlists
  refine ⟨lists'.flatten, ?_, hperm'.flatten⟩
  exact mapError_eq_ok_iff.2 (map_eq_ok_iff.2 ⟨lists', hlists', rfl⟩)

/-- With distinct names the order of the texts does not matter. -/
theorem compileTexts_of_perm {texts texts' : List String} {file : String × SymbolTable}
    (hperm : texts.Perm texts') (hparse : parse texts = .ok namespaces)
    (hnodup : (namespaces.map (·.name)).Nodup) (h : c.compileTexts texts = .ok file) :
    c.compileTexts texts' = .ok file := by
  obtain ⟨namespaces', hparse', hperm'⟩ := exists_parse_of_perm hperm hparse
  obtain ⟨parsed, hparsed, hcompile⟩ := bind_eq_ok_iff.1 h
  obtain rfl : namespaces = parsed := Except.ok.inj (hparse.symm.trans hparsed)
  exact bind_eq_ok_iff.2 ⟨namespaces', hparse', compile_of_perm hperm' hnodup hcompile⟩

/-- **Compilation goes namespace by namespace.**

* A list can be compiled if and only if each of its namespaces can be compiled alone.
* What a namespace makes alone is the file of its part, if it is declared, and of nothing otherwise.
* What a list makes is the file of the parts of the namespaces that are declared, in the order of
  their names: the header, their blocks and the exports, with an empty line between any two, the
  footer, and the symbols of one after the other.
* If the names are distinct, another order of the namespaces or of the texts that they come from
  makes the same file.
* Namespaces that are added leave the parts of the others as they are, and in their order. -/
theorem compile_modular (c : Compiler) :
    (∀ namespaces, (∃ file, c.compile namespaces = .ok file) ↔
      ∀ ns ∈ namespaces, ∃ file, c.compile [ns] = .ok file) ∧
    (∀ ns file, c.compile [ns] = .ok file →
      file = c.render.file (if c.resolver.Declares ns then [c.part ns] else [])) ∧
    (∀ namespaces file, c.compile namespaces = .ok file →
      file = c.render.file ((c.resolver.declared namespaces).map c.part) ∧
      ∀ s ∈ c.render.paragraphs ((c.resolver.declared namespaces).map c.part), EndsLine s) ∧
    (∀ namespaces namespaces' file, namespaces.Perm namespaces' →
      (namespaces.map (·.name)).Nodup → c.compile namespaces = .ok file →
        c.compile namespaces' = .ok file) ∧
    (∀ texts texts' namespaces file, texts.Perm texts' → parse texts = .ok namespaces →
      (namespaces.map (·.name)).Nodup → c.compileTexts texts = .ok file →
        c.compileTexts texts' = .ok file) ∧
    ∀ few many : List Namespace, few.Sublist many →
      ((c.resolver.declared few).map c.part).Sublist ((c.resolver.declared many).map c.part) := by
  refine ⟨fun namespaces => ?_, fun ns file h => ?_, fun namespaces file h => ?_,
    fun namespaces namespaces' file => compile_of_perm,
    fun texts texts' namespaces file => compileTexts_of_perm, fun few many h => ?_⟩
  · simp only [exists_compile_iff, List.forall_mem_singleton]
  · rw [compile_eq_file h, declared_singleton]
    split <;> rfl
  · obtain ⟨hall, hfile⟩ := compile_eq_ok_iff_file.1 h
    exact ⟨hfile, fun s => endsLine_of_mem_paragraphs hall⟩
  · exact (sublist_mergeSort_of_sublist (h.filter _)).map c.part

end Compiler

end ApiTypings
