import ApiTypings.Json.Token
/-!
# JSON texts as they are written

`Written` is the tree of a JSON text before any of its values is looked at: numbers are numerals,
strings are pieces, and an object keeps all its members, repeated keys included. `Written.ofTokens?`
builds it with a stack of open arrays and objects, one token at a time.

A `Written` tree carries no limit on nesting. Who asks for its value sets one (`Written.value?`).
-/

namespace ApiTypings.Json

/-- A JSON text as a tree. -/
inductive Written
  | null
  | bool (value : Bool)
  | number (numeral : Numeral)
  | string (pieces : List Piece)
  | array (items : List Written)
  | object (members : List (List Piece × Written))
  deriving Repr, Inhabited

namespace Written

/-! ### The machine -/

/-- An array or object that is still open. Its items are in reverse. -/
inductive Frame
  | array (items : List Written)
  | object (members : List (List Piece × Written)) (key : List Piece)
  deriving Inhabited

/-- What the next token may be. -/
inductive Expected
  /-- A value. -/
  | value
  /-- A value or the end of the array that was just opened. -/
  | firstItem
  /-- A key of the object with these members (in reverse). -/
  | key (members : List (List Piece × Written))
  /-- A key or the end of the object that was just opened. -/
  | firstKey
  /-- A colon after this key. -/
  | colon (members : List (List Piece × Written)) (key : List Piece)
  /-- A comma or the end of the innermost array or object. -/
  | separator
  /-- Nothing: the text is this tree. -/
  | finished (root : Written)
  deriving Inhabited

/-- The machine: what is open, innermost first, and what may come. -/
structure Builder where
  opened : List Frame := []
  expected : Expected := .value
  deriving Inhabited

namespace Builder

/-- Puts a finished value where it belongs. -/
def place (opened : List Frame) (v : Written) : Builder :=
  match opened with
  | [] => ⟨[], .finished v⟩
  | .array items :: rest => ⟨.array (v :: items) :: rest, .separator⟩
  | .object members key :: rest => ⟨.object ((key, v) :: members) [] :: rest, .separator⟩

/-- Takes the first token of a value. -/
def startValue? (opened : List Frame) : Token → Option Builder
  | .null => some (place opened .null)
  | .bool b => some (place opened (.bool b))
  | .number n => some (place opened (.number n))
  | .string pieces => some (place opened (.string pieces))
  | .openBracket => some ⟨.array [] :: opened, .firstItem⟩
  | .openBrace => some ⟨opened, .firstKey⟩
  | _ => none

/-- Takes one token. -/
def step (b : Builder) (t : Token) : Option Builder :=
  match b.expected, t with
  | .finished _, _ => none
  | .value, t => startValue? b.opened t
  | .firstItem, .closeBracket =>
    match b.opened with
    | .array _ :: rest => some (place rest (.array []))
    | _ => none
  | .firstItem, t => startValue? b.opened t
  | .firstKey, .closeBrace => some (place b.opened (.object []))
  | .firstKey, .string key => some ⟨b.opened, .colon [] key⟩
  | .key members, .string key => some ⟨b.opened, .colon members key⟩
  | .colon members key, .colon => some ⟨.object members key :: b.opened, .value⟩
  | .separator, .comma =>
    match b.opened with
    | .array _ :: _ => some ⟨b.opened, .value⟩
    | .object members _ :: rest => some ⟨rest, .key members⟩
    | [] => none
  | .separator, .closeBracket =>
    match b.opened with
    | .array items :: rest => some (place rest (.array items.reverse))
    | _ => none
  | .separator, .closeBrace =>
    match b.opened with
    | .object members _ :: rest => some (place rest (.object members.reverse))
    | _ => none
  | _, _ => none

end Builder

/-- The tree of a sequence of tokens, if it is exactly one JSON value. -/
def ofTokens? (tokens : List Token) : Option Written :=
  match tokens.foldlM Builder.step {} with
  | some ⟨[], .finished root⟩ => some root
  | _ => none

/-- The tree of a text, if it is exactly one JSON value. -/
def ofText? (text : String) : Option Written :=
  (tokens? text).bind ofTokens?

end Written

/-! ### The text of a string -/

/-- The characters that pieces write. A unit that is half of a surrogate pair has to be followed by
the other half; no other way of writing half a pair is accepted. -/
def charsOfPieces? : List Piece → Option (List Char)
  | [] => some []
  | .char c :: rest => (charsOfPieces? rest).map (c :: ·)
  | .unit u :: rest =>
    if 0xD800 ≤ u ∧ u < 0xDC00 then
      match rest with
      | .unit v :: rest =>
        if 0xDC00 ≤ v ∧ v < 0xE000 then
          (charsOfPieces? rest).map (Char.ofNat (0x10000 + (u - 0xD800) * 0x400 + (v - 0xDC00)) :: ·)
        else none
      | _ => none
    else if 0xDC00 ≤ u ∧ u < 0xE000 then none
    else (charsOfPieces? rest).map (Char.ofNat u :: ·)

/-- The string that pieces write. -/
def stringOfPieces? (pieces : List Piece) : Option String :=
  (charsOfPieces? pieces).map String.ofList

end ApiTypings.Json
