import ApiTypings.Json.Written
/-!
# JSON values

The value of a JSON text: numbers and strings are looked at, keys of an object are distinct, and the
members keep their order. On a repeated key the last value counts, in the place of the first.

`Value.ofText?` reads a text with at most `maxDepth` open arrays and objects at a time.
`Value.compact` and `Value.indented` write values.
-/

namespace ApiTypings.Json

/-- A JSON value. -/
inductive Value
  | null
  | bool (value : Bool)
  | number (value : Number)
  | string (value : String)
  | array (items : List Value)
  | object (members : List (String × Value))
  deriving Repr, Inhabited

/-- How many arrays and objects of a text may be open at a time. -/
def maxDepth : Nat := 127

/-- Gives a key a value: in the place that the key has, or at the end if it has none. -/
def setMember {α : Type} (key : String) (v : α) : List (String × α) → List (String × α)
  | [] => [(key, v)]
  | (k, w) :: rest => if k = key then (k, v) :: rest else (k, w) :: setMember key v rest

/-- The members with distinct keys: the last value of each key in the place of its first. -/
def distinctMembers {α : Type} (members : List (String × α)) : List (String × α) :=
  members.foldl (fun done m => setMember m.1 m.2 done) []

/-! ### Reading -/

mutual

/-- The value of a tree with at most `room` nested arrays and objects. -/
def Written.value? (room : Nat) : Written → Option Value
  | .null => some .null
  | .bool b => some (.bool b)
  | .number n => n.value?.map .number
  | .string pieces => (stringOfPieces? pieces).map .string
  | .array items =>
    match room with
    | 0 => none
    | room + 1 => (Written.values? room items).map .array
  | .object members =>
    match room with
    | 0 => none
    | room + 1 => (Written.members? room members).map fun ms => .object (distinctMembers ms)

/-- The values of the items of an array. -/
def Written.values? (room : Nat) : List Written → Option (List Value)
  | [] => some []
  | w :: ws => do
    let v ← Written.value? room w
    let vs ← Written.values? room ws
    return v :: vs

/-- The members of an object, repeated keys included. -/
def Written.members? (room : Nat) : List (List Piece × Written) → Option (List (String × Value))
  | [] => some []
  | (key, w) :: ws => do
    let k ← stringOfPieces? key
    let v ← Written.value? room w
    let vs ← Written.members? room ws
    return (k, v) :: vs

end

/-- The value of a text that nests at most `depth` deep. -/
def Value.ofTextWithin? (depth : Nat) (text : String) : Option Value :=
  (Written.ofText? text).bind (Written.value? depth)

/-- The value of a text. -/
def Value.ofText? (text : String) : Option Value :=
  Value.ofTextWithin? maxDepth text

/-! ### Writing -/

/-- A control character as `\u00` and two hexadecimal digits. -/
def controlEscape (c : Char) : List Char :=
  let n := c.toNat
  ['\\', 'u', '0', '0', Nat.digitChar (n / 16), Nat.digitChar (n % 16)]

/-- A character inside a quoted string. Characters from the space on are written as they are, quotes
and backslashes apart. -/
def escapeChar (c : Char) : List Char :=
  match c with
  | '"' => ['\\', '"']
  | '\\' => ['\\', '\\']
  | '\x08' => ['\\', 'b']
  | '\x0c' => ['\\', 'f']
  | '\n' => ['\\', 'n']
  | '\r' => ['\\', 'r']
  | '\t' => ['\\', 't']
  | c => if c.toNat < 0x20 then controlEscape c else [c]

/-- A string in quotes. -/
def quote (s : String) : String :=
  String.ofList ('"' :: (s.toList.flatMap escapeChar ++ ['"']))

namespace Value

mutual

/-- The value on one line, without spaces. -/
def compact : Value → String
  | null => "null"
  | bool b => if b then "true" else "false"
  | number n => n.text
  | string s => quote s
  | array items => "[" ++ ",".intercalate (compactItems items) ++ "]"
  | object members => "\x7b" ++ ",".intercalate (compactMembers members) ++ "\x7d"

/-- The items of an array on one line each. -/
def compactItems : List Value → List String
  | [] => []
  | v :: vs => compact v :: compactItems vs

/-- The members of an object on one line each. -/
def compactMembers : List (String × Value) → List String
  | [] => []
  | (k, v) :: vs => (quote k ++ ":" ++ compact v) :: compactMembers vs

end

/-- Two spaces for every level. -/
def margin (level : Nat) : String :=
  String.ofList (List.replicate (2 * level) ' ')

/-- Entries between brackets, one a line; nothing between the brackets if there are no entries. -/
def bracketed (opening closing : String) (level : Nat) (entries : List String) : String :=
  if entries.isEmpty then opening ++ closing
  else
    opening ++ "\n" ++ ",\n".intercalate (entries.map (margin (level + 1) ++ ·)) ++ "\n"
      ++ margin level ++ closing

mutual

/-- The value with every item and member on a line of its own, for a line indented `level` deep. -/
def indented (level : Nat) : Value → String
  | array items => bracketed "[" "]" level (indentedItems (level + 1) items)
  | object members => bracketed "\x7b" "\x7d" level (indentedMembers (level + 1) members)
  | null => "null"
  | bool b => if b then "true" else "false"
  | number n => n.text
  | string s => quote s

/-- The items of an array, each as `indented`. -/
def indentedItems (level : Nat) : List Value → List String
  | [] => []
  | v :: vs => indented level v :: indentedItems level vs

/-- The members of an object, each as `indented`. -/
def indentedMembers (level : Nat) : List (String × Value) → List String
  | [] => []
  | (k, v) :: vs => (quote k ++ ": " ++ indented level v) :: indentedMembers level vs

end

/-! ### Looking at a value -/

/-- The value of a member. -/
def member? (v : Value) (key : String) : Option Value :=
  match v with
  | object members => members.lookup key
  | _ => none

end Value

end ApiTypings.Json
