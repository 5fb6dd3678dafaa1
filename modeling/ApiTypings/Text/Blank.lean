/-!
# Blank characters

White space as the Unicode property `White_Space` has it, and what the library does with it:
trimming, taking the first word, cutting a text into lines. Descriptions and namespace names reach
the library as free text, so the whole property counts, not its ASCII part.

All functions work on `List Char`. Trimming and cutting into lines are lifted to `String` at the end
of the file.
-/

namespace ApiTypings

/-! ### The class of blanks -/

/-- The 25 characters of the property `White_Space`. -/
def blanks : List Char :=
  ['\t', '\n', '\x0b', '\x0c', '\r', ' ', '\u0085', '\u00a0', '\u1680', '\u2000', '\u2001',
    '\u2002', '\u2003', '\u2004', '\u2005', '\u2006', '\u2007', '\u2008', '\u2009', '\u200a',
    '\u2028', '\u2029', '\u202f', '\u205f', '\u3000']

/-- Whether a character is white space. -/
def isBlank (c : Char) : Bool :=
  blanks.contains c

/-- **Core's white space is blank.** The property only adds to what `Char.isWhitespace` knows. -/
theorem isBlank_of_isWhitespace {c : Char} (h : c.isWhitespace = true) : isBlank c = true := by
  simp only [Char.isWhitespace, Bool.or_eq_true, decide_eq_true_eq] at h
  rcases h with ((h | h) | h) | h <;> subst h <;> decide

/-! ### Trimming -/

/-- The characters up to the last one that is not blank. -/
def trimEndChars (cs : List Char) : List Char :=
  (cs.reverse.dropWhile isBlank).reverse

/-- The characters from the first to the last one that is not blank. -/
def trimChars (cs : List Char) : List Char :=
  trimEndChars (cs.dropWhile isBlank)

/-- The first maximal run of characters that are not blank, if there is one. -/
def firstWordChars? (cs : List Char) : Option (List Char) :=
  match (cs.dropWhile isBlank).takeWhile (!isBlank ·) with
  | [] => none
  | word => some word

/-! ### Lines -/

/-- A line that was ended by a line feed, without the carriage return before it. -/
def dropReturn (line : List Char) : List Char :=
  if line.getLast? = some '\r' then line.dropLast else line

/-- The lines of a text. A line ends at a line feed, which takes one carriage return before it
along; text after the last line feed is a line only if there is any. -/
def lineChars (cs : List Char) : List (List Char) :=
  let pieces := cs.splitOn '\n'
  let ended := pieces.dropLast.map dropReturn
  match pieces.getLast? with
  | none | some [] => ended
  | some rest => ended ++ [rest]

/-! ### On strings -/

/-- The text without blanks at its ends. -/
def trim (s : String) : String :=
  String.ofList (trimChars s.toList)

/-- The text without blanks at its end. -/
def trimEnd (s : String) : String :=
  String.ofList (trimEndChars s.toList)

/-- The lines of a text, without their ends. -/
def textLines (s : String) : List String :=
  (lineChars s.toList).map String.ofList

end ApiTypings
