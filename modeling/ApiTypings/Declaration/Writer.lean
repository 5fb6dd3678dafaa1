/-!
# Writing indented text

A `Writer` gathers text line by line. It knows how far the next line is to be indented; the
indentation is written when the caller says where a line starts.
-/

namespace ApiTypings

/-- One level of indentation, if nothing else is asked for. -/
def defaultIndent : String := "  "

/-- A unit of indentation, `level` times. -/
def indentation (unit : String) (level : Nat) : String :=
  String.join (List.replicate level unit)

/-- Text so far, and where the next line starts. -/
structure Writer where
  text : String := ""
  /-- One level of indentation. -/
  unit : String := defaultIndent
  level : Nat := 0
  deriving DecidableEq, Repr, Inhabited

namespace Writer

/-- Writes text as it is. -/
def write (w : Writer) (s : String) : Writer :=
  { w with text := w.text ++ s }

/-- Ends the line. -/
def newLine (w : Writer) : Writer :=
  w.write "\n"

/-- Writes the indentation of a line. -/
def writeIndent (w : Writer) : Writer :=
  w.write (indentation w.unit w.level)

/-- Writes a whole line. -/
def line (w : Writer) (s : String) : Writer :=
  (w.writeIndent.write s).newLine

/-- Writes whole lines. -/
def lines (w : Writer) (ls : List String) : Writer :=
  ls.foldl line w

/-- Indents the next lines one level deeper. -/
def indent (w : Writer) : Writer :=
  { w with level := w.level + 1 }

/-- Indents the next lines one level less, if they are indented. -/
def outdent (w : Writer) : Writer :=
  { w with level := w.level - 1 }

/-- Whether nothing has been written. -/
def isEmpty (w : Writer) : Bool :=
  w.text.isEmpty

/-- How many bytes have been written. -/
def size (w : Writer) : Nat :=
  w.text.utf8ByteSize

/-- Whether what was written last separates what comes next: nothing at all, an empty line, or a
line that opens a block. -/
def atBlankLine (w : Writer) : Bool :=
  w.isEmpty || w.text.endsWith "\n\n" || w.text.endsWith "\x7b\n"

/-- Writes paragraphs with an empty line between any two of them. -/
def paragraphs (w : Writer) : List (Writer → Writer) → Writer
  | [] => w
  | [last] => last w
  | p :: rest => paragraphs (p w).newLine rest

end Writer

end ApiTypings
