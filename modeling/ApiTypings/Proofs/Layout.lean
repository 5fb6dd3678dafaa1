import ApiTypings.Declaration.Document
/-!
# The layout of a document

Whatever is written is put behind what is there already, and does not depend on it: `Writer.Writes`
says that a step of writing adds a text that is given by the indentation alone, and leaves the
indentation as it was. So the text of a document is made of the texts of its parts, each as it would
be written by itself (`Document.text_eq`), and every part ends with the end of a line
(`Document.paragraph_of_mem_parts`).
-/

namespace ApiTypings

/-- A text ends with the end of a line. -/
def EndsLine (text : String) : Prop :=
  ∃ before, text = before ++ "\n"

theorem EndsLine.append (before : String) {text : String} (h : EndsLine text) :
    EndsLine (before ++ text) := by
  obtain ⟨start, rfl⟩ := h
  exact ⟨before ++ start, String.append_assoc.symm⟩

namespace Writer

variable {f g : Writer → Writer} {a b : String → Nat → String}

/-- What a step writes by itself, with this indentation. -/
def written (f : Writer → Writer) (unit : String) (level : Nat) : String :=
  (f { unit := unit, level := level }).text

/-- A step adds the text that `text` gives for the indentation. -/
def Writes (f : Writer → Writer) (text : String → Nat → String) : Prop :=
  ∀ w, f w = { w with text := w.text ++ text w.unit w.level }

namespace Writes

theorem written_eq (h : Writes f a) : written f = a := by
  funext unit level
  unfold written
  rw [h]
  exact String.empty_append

/-- What a step adds is what it writes by itself. -/
theorem self (h : Writes f a) : Writes f (written f) :=
  h.written_eq ▸ h

/-! ### Single steps -/

theorem write (s : String) : Writes (·.write s) fun _ _ => s :=
  fun _ => rfl

theorem id : Writes id fun _ _ => "" := by
  intro w
  rw [String.append_empty]
  rfl

/-- One step after another. -/
theorem comp (hf : Writes f a) (hg : Writes g b) :
    Writes (fun w => g (f w)) fun unit level => a unit level ++ b unit level := by
  intro w
  show g (f w) = _
  rw [hg, hf, String.append_assoc]

theorem line (s : String) :
    Writes (·.line s) fun unit level => indentation unit level ++ s ++ "\n" := by
  intro w
  unfold Writer.line newLine writeIndent Writer.write
  rw [← String.append_assoc, ← String.append_assoc]

/-- A step that looks at the indentation first. -/
theorem indented {step : String → Nat → Writer → Writer}
    {text : String → Nat → String → Nat → String}
    (h : ∀ unit level, Writes (step unit level) (text unit level)) :
    Writes (fun w => step w.unit w.level w) fun unit level => text unit level unit level :=
  fun w => h w.unit w.level w

/-- Steps that are taken for each element of a list. -/
theorem foldl {α : Type} {step : Writer → α → Writer} {text : α → String → Nat → String}
    (h : ∀ x, Writes (step · x) (text x)) (xs : List α) :
    Writes (fun w => xs.foldl step w)
      fun unit level => String.join (xs.map fun x => text x unit level) := by
  induction xs with
  | nil => exact id
  | cons x xs ih =>
    simp only [List.foldl_cons, List.map_cons, String.join_cons]
    exact (h x).comp ih

/-! ### Blocks and paragraphs -/

/-- Steps that are taken one level deeper. -/
theorem deeper (h : Writes f a) :
    Writes (fun w => (f w.indent).outdent) fun unit level => a unit (level + 1) := by
  intro w
  show (f w.indent).outdent = _
  rw [h]
  rfl

/-- A block is its first line, what it holds, one level deeper, and its last line. -/
theorem block (header : String) (h : Writes f a) :
    Writes (·.block header f) fun unit level =>
      (indentation unit level ++ (header ++ " \x7b") ++ "\n") ++ a unit (level + 1)
        ++ (indentation unit level ++ "\x7d" ++ "\n") :=
  ((line (header ++ " \x7b")).comp h.deeper).comp (line "\x7d")

/-- Paragraphs have an empty line between any two of them. -/
theorem paragraphs {fs : List (Writer → Writer)} (h : ∀ f ∈ fs, Writes f (written f)) :
    Writes (·.paragraphs fs) fun unit level =>
      "\n".intercalate (fs.map fun f => written f unit level) := by
  induction fs with
  | nil => exact id
  | cons f fs ih =>
    have hf := h f (List.mem_cons_self ..)
    cases fs with
    | nil => exact hf
    | cons g rest =>
      have hrest := ih fun k hk => h k (List.mem_cons_of_mem _ hk)
      simp only [List.map_cons, String.intercalate_cons_cons] at hrest ⊢
      exact (hf.comp (write "\n")).comp hrest

end Writes

/-! ### Whole lines -/

/-- A step adds a text that is given by the indentation and that ends with the end of a line. -/
structure Paragraph (f : Writer → Writer) : Prop where
  writes : Writes f (written f)
  endsLine : ∀ unit level, EndsLine (written f unit level)

theorem Writes.paragraph (h : Writes f a) (hends : ∀ unit level, EndsLine (a unit level)) :
    Paragraph f :=
  ⟨h.self, fun unit level => h.written_eq ▸ hends unit level⟩

/-- What comes last ends the line. -/
theorem Writes.comp_paragraph (hf : Writes f a) (hg : Paragraph g) :
    Paragraph (fun w => g (f w)) :=
  (hf.comp hg.writes).paragraph fun unit level => (hg.endsLine unit level).append _

theorem Writes.block_paragraph (header : String) (h : Writes f a) : Paragraph (·.block header f) :=
  (h.block header).paragraph fun _ _ => .append _ (.append _ ⟨"", rfl⟩)

theorem Paragraph.foldl {α : Type} {step : Writer → α → Writer} (h : ∀ x, Paragraph (step · x))
    {xs : List α} (hne : xs ≠ []) : Paragraph fun w => xs.foldl step w := by
  induction xs with
  | nil => exact absurd rfl hne
  | cons x xs ih =>
    cases xs with
    | nil => exact h x
    | cons y ys => exact (h x).writes.comp_paragraph (ih (List.cons_ne_nil y ys))

end Writer

open Writer

/-! ### The parts of a document -/

theorem Writer.writes_rawLines (lines : List String) :
    Writes (·.rawLines lines) fun _ _ => String.join (lines.map (· ++ "\n")) :=
  .foldl (fun line => (Writes.write line).comp (.write "\n")) lines

theorem Writer.writes_lines (lines : List String) :
    Writes (·.lines lines) fun unit level =>
      String.join (lines.map fun line => indentation unit level ++ line ++ "\n") :=
  .foldl (fun line => .line line) lines

theorem Alias.writes (a : Alias) : Writes a.write fun unit level =>
    indentation unit level ++ ("export \x7b " ++ a.internal ++ " as " ++ a.external ++ " \x7d;")
      ++ "\n" :=
  .line _

theorem Alias.writes_all (aliases : List Alias) : Writes (Alias.writeAll aliases) fun unit level =>
    String.join (aliases.map fun a => indentation unit level
      ++ ("export \x7b " ++ a.internal ++ " as " ++ a.external ++ " \x7d;") ++ "\n") :=
  .foldl Alias.writes aliases

theorem Declaration.writes (d : Declaration) :
    Writes (Declaration.write · d) (written (Declaration.write · d)) := by
  cases d with
  | typeAlias name templates type =>
    exact (Writes.indented fun unit level => .line ("export type " ++ name
      ++ templateText templates ++ " = " ++ type.text unit level false ++ ";")).self
  | interfaceType name templates members =>
    have hmembers := Writes.indented fun unit level =>
      writes_rawLines (TypeExpr.memberLines unit level members)
    exact (hmembers.block ("export interface " ++ name ++ templateText templates)).self
  | classType name templates arguments members =>
    have hmembers := Writes.indented fun unit level =>
      writes_rawLines (TypeExpr.memberLines unit level members)
    have hconstructor := Writes.line ("constructor(arg: " ++ name
      ++ templateText (templates.map fun _ => commaSeparated arguments) ++ ");")
    exact ((hconstructor.comp hmembers).block ("export class " ++ name
      ++ templateText templates)).self
  | constant name value => exact (Writes.line _).self
  | typedConstant name type =>
    exact (Writes.indented fun unit level => .line ("export const " ++ name ++ ": "
      ++ type.text unit level false ++ ";")).self
  | letVariable name type =>
    exact (Writes.indented fun unit level => .line ("export let " ++ name ++ ": "
      ++ type.text unit level false ++ ";")).self
  | function name parameters returns =>
    exact (Writes.indented fun unit level => .line ("export function " ++ name ++ "("
      ++ commaSeparated (TypeExpr.parameterTexts unit level parameters) ++ "): "
      ++ returns.text unit level false ++ ";")).self

theorem Statement.writes (s : Statement) : Writes s.write (written s.write) :=
  ((writes_lines s.doc.lines).comp s.declaration.writes).self

theorem Statement.writes_all (ss : List Statement) :
    Writes (Statement.writeAll ss) (written (Statement.writeAll ss)) :=
  (Writes.foldl Statement.writes ss).self

theorem paragraph_of_mem_aliasParagraphs {aliases : List Alias} {f : Writer → Writer}
    (hf : f ∈ aliasParagraphs aliases) : Paragraph f := by
  unfold aliasParagraphs at hf
  split at hf
  next => exact absurd hf List.not_mem_nil
  next hne =>
    rw [List.mem_singleton.1 hf]
    refine .foldl (fun a => (Alias.writes a).paragraph fun unit level => ?_) fun hnil => hne ?_
    · exact .append _ ⟨"", rfl⟩
    · rw [hnil]
      rfl

/-- The paragraphs of a block: its declarations, and its exports. -/
theorem Block.writes_of_mem_paragraphs {b : Block} {f : Writer → Writer}
    (hf : f ∈ b.paragraphs.map Statement.writeAll ++ aliasParagraphs b.aliases) :
    Writes f (written f) := by
  rcases List.mem_append.1 hf with hf | hf
  · obtain ⟨ss, -, rfl⟩ := List.mem_map.1 hf
    exact Statement.writes_all ss
  · exact (paragraph_of_mem_aliasParagraphs hf).writes

theorem Block.paragraph (nested : Bool) (b : Block) : Paragraph (b.write nested) :=
  (writes_lines b.doc.lines).comp_paragraph
    ((Writes.paragraphs fun _ => writes_of_mem_paragraphs).block_paragraph
      (namespaceKeyword nested ++ b.name))

namespace Document

/-- Every part of a document can be written by itself and ends with the end of a line. -/
theorem paragraph_of_mem_parts {d : Document} {f : Writer → Writer} (hf : f ∈ d.parts) :
    Paragraph f := by
  unfold parts at hf
  rcases List.mem_append.1 hf with hf | hf
  · rcases List.mem_append.1 hf with hf | hf
    · obtain ⟨b, -, rfl⟩ := List.mem_map.1 hf
      exact b.paragraph d.root.isSome
    · obtain ⟨group, -, rfl⟩ := List.mem_map.1 hf
      exact (Alias.writes_all group.2).block_paragraph _
  · exact paragraph_of_mem_aliasParagraphs hf

/-- The line that opens the namespace that a document is nested in, if there is one. -/
def header (root : Option String) : String :=
  root.elim "" fun name => "declare namespace " ++ name ++ " \x7b" ++ "\n"

/-- The line that closes it. -/
def footer (root : Option String) : String :=
  root.elim "" fun _ => "\x7d" ++ "\n"

/-- How deep the parts of a document are indented. -/
def depth (root : Option String) : Nat :=
  if root.isSome then 1 else 0

/-- **The text of a document** is made of the texts of its parts, with an empty line between any
two of them. -/
theorem text_eq (d : Document) (unit : String) :
    d.text unit =
      header d.root ++ "\n".intercalate (d.parts.map fun f => written f unit (depth d.root))
        ++ footer d.root := by
  have hparts := Writes.paragraphs fun f (hf : f ∈ d.parts) => (paragraph_of_mem_parts hf).writes
  unfold text write
  cases d.root with
  | none =>
    show written (·.paragraphs d.parts) unit 0 = "" ++ _ ++ ""
    rw [hparts.written_eq, String.empty_append, String.append_empty]
    rfl
  | some root =>
    show written (·.block ("declare namespace " ++ root) (·.paragraphs d.parts)) unit 0 = _
    rw [(hparts.block _).written_eq]
    show "" ++ _ ++ "\n" ++ _ ++ ("" ++ "\x7d" ++ "\n") = _
    rw [String.empty_append, String.empty_append]
    rfl

end Document

end ApiTypings
