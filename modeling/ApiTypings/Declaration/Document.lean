import ApiTypings.Declaration.TypeExpr
/-!
# Declaration files

A `Document` is the content of a declaration file: a block for every namespace, the exports of
escaped names, and the root namespace that everything is nested in, if there is one. `Document.text`
writes it.

**Layout.** Blocks, and the paragraphs of a block, are separated by empty lines. A paragraph is one
declaration with its comment, or all overloads of one function.
-/

namespace ApiTypings

/-! ### The parts -/

/-- A name that was declared under another one: `export { internal as external };`. -/
structure Alias where
  internal : String
  external : String
  deriving DecidableEq, Repr, Inhabited

/-- A declaration inside a namespace. -/
inductive Declaration
  | typeAlias (name : String) (templates : Option String) (type : TypeExpr)
  | interfaceType (name : String) (templates : Option String) (members : List (ObjectMember TypeExpr))
  /-- A class. Its constructor takes an instance; `arguments` are the template parameters by name.
  -/
  | classType (name : String) (templates : Option String) (arguments : List String)
      (members : List (ObjectMember TypeExpr))
  | constant (name : String) (value : Literal)
  | typedConstant (name : String) (type : TypeExpr)
  | letVariable (name : String) (type : TypeExpr)
  | function (name : String) (parameters : List (Parameter TypeExpr)) (returns : TypeExpr)
  deriving Repr

/-- A declaration with its comment. -/
structure Statement where
  doc : Doc
  declaration : Declaration
  deriving Repr

/-- The block of a namespace. -/
structure Block where
  doc : Doc
  /-- The dotted name, escaped segment by segment. -/
  name : String
  paragraphs : List (List Statement)
  aliases : List Alias
  deriving Repr

/-- The content of a declaration file. -/
structure Document where
  root : Option String
  blocks : List Block
  /-- Exports inside other namespaces, by the dotted name of the namespace. -/
  scopedAliases : List (String × List Alias)
  /-- Exports next to the blocks. -/
  aliases : List Alias
  deriving Repr

/-! ### Writing -/

/-- Template parameters after a declared name. -/
def templateText (templates : Option String) : String :=
  templates.elim "" fun t => "<" ++ t ++ ">"

/-- Writes something between a line that opens a block and the line that closes it. -/
def Writer.block (w : Writer) (header : String) (body : Writer → Writer) : Writer :=
  ((body (w.line (header ++ " \x7b")).indent).outdent).line "\x7d"

/-- Writes an export. -/
def Alias.write (a : Alias) (w : Writer) : Writer :=
  w.line ("export \x7b " ++ a.internal ++ " as " ++ a.external ++ " \x7d;")

/-- Writes exports. -/
def Alias.writeAll (aliases : List Alias) (w : Writer) : Writer :=
  aliases.foldl (fun w a => a.write w) w

/-- Writes lines that carry their indentation. -/
def Writer.rawLines (w : Writer) (lines : List String) : Writer :=
  lines.foldl (fun w l => (w.write l).newLine) w

namespace Declaration

/-- Writes a declaration. -/
def write (w : Writer) : Declaration → Writer
  | typeAlias name templates type =>
    w.line ("export type " ++ name ++ templateText templates ++ " = "
      ++ type.text w.unit w.level false ++ ";")
  | interfaceType name templates members =>
    w.block ("export interface " ++ name ++ templateText templates) fun w =>
      w.rawLines (TypeExpr.memberLines w.unit w.level members)
  | classType name templates arguments members =>
    w.block ("export class " ++ name ++ templateText templates) fun w =>
      (w.line ("constructor(arg: " ++ name
        ++ templateText (templates.map fun _ => commaSeparated arguments) ++ ");")).rawLines
          (TypeExpr.memberLines w.unit w.level members)
  | constant name value => w.line ("export const " ++ name ++ " = " ++ value.text ++ ";")
  | typedConstant name type =>
    w.line ("export const " ++ name ++ ": " ++ type.text w.unit w.level false ++ ";")
  | letVariable name type =>
    w.line ("export let " ++ name ++ ": " ++ type.text w.unit w.level false ++ ";")
  | function name parameters returns =>
    w.line ("export function " ++ name ++ "("
      ++ commaSeparated (TypeExpr.parameterTexts w.unit w.level parameters) ++ "): "
      ++ returns.text w.unit w.level false ++ ";")

end Declaration

/-- Writes a declaration with its comment. -/
def Statement.write (s : Statement) (w : Writer) : Writer :=
  s.declaration.write (w.lines s.doc.lines)

/-- Writes the declarations of one paragraph. -/
def Statement.writeAll (ss : List Statement) (w : Writer) : Writer :=
  ss.foldl (fun w s => s.write w) w

/-- The words that open a namespace, by whether it is nested in another one. -/
def namespaceKeyword (nested : Bool) : String :=
  if nested then "export namespace " else "declare namespace "

/-- Exports as a paragraph, if there are any. -/
def aliasParagraphs (aliases : List Alias) : List (Writer → Writer) :=
  if aliases.isEmpty then [] else [Alias.writeAll aliases]

/-- Writes the block of a namespace. -/
def Block.write (nested : Bool) (b : Block) (w : Writer) : Writer :=
  (w.lines b.doc.lines).block (namespaceKeyword nested ++ b.name) fun w =>
    w.paragraphs (b.paragraphs.map Statement.writeAll ++ aliasParagraphs b.aliases)

namespace Document

/-- What a document consists of, in order. -/
def parts (d : Document) : List (Writer → Writer) :=
  d.blocks.map (Block.write d.root.isSome)
    ++ d.scopedAliases.map (fun s w =>
      w.block (namespaceKeyword d.root.isSome ++ s.1) (Alias.writeAll s.2))
    ++ aliasParagraphs d.aliases

/-- Writes a document. -/
def write (d : Document) (w : Writer) : Writer :=
  match d.root with
  | some root => w.block ("declare namespace " ++ root) (·.paragraphs d.parts)
  | none => w.paragraphs d.parts

/-- The text of a document. -/
def text (d : Document) (unit : String) : String :=
  (d.write { unit := unit }).text

end Document

end ApiTypings
