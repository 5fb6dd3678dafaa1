import ApiTypings.Json.Number
/-!
# Tokens of JSON texts

A text is cut into tokens by a machine that takes one character at a time (`Lexer.step`), so reading
is a fold over the characters. The machine knows the grammar of strings and numbers and nothing
else: it neither checks that surrogate escapes come in pairs nor that a number is in range. Both are
questions of value, and a value that nobody looks at may fail them.
-/

namespace ApiTypings.Json

/-! ### Tokens -/

/-- One element of a string as it is written: a character, or a UTF-16 unit written as `\u` and four
hexadecimal digits. -/
inductive Piece
  | char (c : Char)
  | unit (u : Nat)
  deriving DecidableEq, Repr, Inhabited

/-- A token. -/
inductive Token
  | openBrace
  | closeBrace
  | openBracket
  | closeBracket
  | comma
  | colon
  | null
  | bool (value : Bool)
  | number (numeral : Numeral)
  | string (pieces : List Piece)
  deriving DecidableEq, Repr, Inhabited

/-! ### The parts of a numeral -/

/-- Where in a numeral the machine stands. -/
inductive NumeralPhase
  /-- After the minus sign. -/
  | sign
  /-- After a leading zero. -/
  | zero
  /-- Among the digits before the point. -/
  | whole
  /-- After the point. -/
  | point
  /-- Among the digits after the point. -/
  | decimals
  /-- After the letter of the exponent. -/
  | mark
  /-- After the sign of the exponent. -/
  | markSign
  /-- Among the digits of the exponent. -/
  | exponent
  deriving DecidableEq, Repr, Inhabited

/-- The value of a decimal digit. -/
def digit? (c : Char) : Option Nat :=
  if c.isDigit then some (c.toNat - '0'.toNat) else none

/-- The value of a hexadecimal digit. -/
def hexDigit? (c : Char) : Option Nat :=
  if c.isDigit then some (c.toNat - '0'.toNat)
  else if 'a' ≤ c ∧ c ≤ 'f' then some (c.toNat - 'a'.toNat + 10)
  else if 'A' ≤ c ∧ c ≤ 'F' then some (c.toNat - 'A'.toNat + 10)
  else none

/-- Whether a numeral may end here. -/
def NumeralPhase.isComplete : NumeralPhase → Bool
  | zero | whole | decimals | exponent => true
  | sign | point | mark | markSign => false

namespace Numeral

/-- A numeral under construction keeps its digits in reverse; this turns them round. -/
def finish (n : Numeral) : Numeral where
  negative := n.negative
  whole := n.whole.reverse
  decimals := n.decimals.map List.reverse
  exponent := n.exponent.map fun e => (e.1, e.2.reverse)

/-- A numeral under construction with one more digit in its exponent. -/
def pushExponent (n : Numeral) (d : Nat) : Numeral :=
  let (minus, ds) := n.exponent.getD (false, [])
  { n with exponent := some (minus, d :: ds) }

/-- Takes a character into a numeral under construction, or answers `none` if the numeral does not
go on with it. -/
def extend? (n : Numeral) (phase : NumeralPhase) (c : Char) : Option (NumeralPhase × Numeral) :=
  let point := if c = '.' then some (.point, { n with decimals := some [] }) else none
  let mark := if c = 'e' ∨ c = 'E' then some (.mark, { n with exponent := some (false, []) }) else none
  match phase with
  | .sign => (digit? c).map fun d => (if d = 0 then .zero else .whole, { n with whole := [d] })
  | .zero => point <|> mark
  | .whole =>
    (digit? c).map (fun d => (.whole, { n with whole := d :: n.whole })) <|> point <|> mark
  | .point => (digit? c).map fun d => (.decimals, { n with decimals := some [d] })
  | .decimals =>
    (digit? c).map (fun d => (.decimals, { n with decimals := n.decimals.map (d :: ·) })) <|> mark
  | .mark =>
    if c = '+' then some (.markSign, n)
    else if c = '-' then some (.markSign, { n with exponent := some (true, []) })
    else (digit? c).map fun d => (.exponent, n.pushExponent d)
  | .markSign | .exponent => (digit? c).map fun d => (.exponent, n.pushExponent d)

end Numeral

/-! ### The machine -/

/-- What the machine is inside of. Lists are in reverse. -/
inductive LexerState
  | between
  | word (letters : List Char)
  | string (pieces : List Piece)
  | escaped (pieces : List Piece)
  | hex (pieces : List Piece) (count value : Nat)
  | number (phase : NumeralPhase) (numeral : Numeral)
  deriving Repr, Inhabited

/-- The machine: the finished tokens, last one first, and its state. -/
structure Lexer where
  tokens : List Token := []
  state : LexerState := .between
  deriving Repr, Inhabited

/-- White space between tokens. -/
def isSpace (c : Char) : Bool :=
  c = ' ' || c = '\t' || c = '\n' || c = '\r'

/-- The token that a word is. -/
def wordToken? (letters : List Char) : Option Token :=
  match String.ofList letters with
  | "null" => some .null
  | "true" => some (.bool true)
  | "false" => some (.bool false)
  | _ => none

/-- The character that a letter after a backslash stands for. -/
def simpleEscape? : Char → Option Char
  | '"' => some '"'
  | '\\' => some '\\'
  | '/' => some '/'
  | 'b' => some '\x08'
  | 'f' => some '\x0c'
  | 'n' => some '\n'
  | 'r' => some '\r'
  | 't' => some '\t'
  | _ => none

namespace Lexer

/-- Takes a character between two tokens. -/
def start? (tokens : List Token) (c : Char) : Option Lexer :=
  match c with
  | '\x7b' => some ⟨.openBrace :: tokens, .between⟩
  | '\x7d' => some ⟨.closeBrace :: tokens, .between⟩
  | '[' => some ⟨.openBracket :: tokens, .between⟩
  | ']' => some ⟨.closeBracket :: tokens, .between⟩
  | ',' => some ⟨.comma :: tokens, .between⟩
  | ':' => some ⟨.colon :: tokens, .between⟩
  | '"' => some ⟨tokens, .string []⟩
  | '-' => some ⟨tokens, .number .sign ⟨true, [], none, none⟩⟩
  | _ =>
    if isSpace c then some ⟨tokens, .between⟩
    else if c.isLower then some ⟨tokens, .word [c]⟩
    else (digit? c).map fun d =>
      ⟨tokens, .number (if d = 0 then .zero else .whole) ⟨false, [d], none, none⟩⟩

/-- Ends the word or number that the machine is in; a string cannot end by itself. -/
def close? (x : Lexer) : Option (List Token) :=
  match x.state with
  | .between => some x.tokens
  | .word letters => (wordToken? letters.reverse).map (· :: x.tokens)
  | .number phase n => if phase.isComplete then some (.number n.finish :: x.tokens) else none
  | .string _ | .escaped _ | .hex .. => none

/-- Takes one character. A raw control character inside a string is refused. -/
def step (x : Lexer) (c : Char) : Option Lexer :=
  match x.state with
  | .between => start? x.tokens c
  | .word letters =>
    if c.isLower then some ⟨x.tokens, .word (c :: letters)⟩
    else x.close?.bind (start? · c)
  | .number phase n =>
    match n.extend? phase c with
    | some (phase, n) => some ⟨x.tokens, .number phase n⟩
    | none => x.close?.bind (start? · c)
  | .string pieces =>
    if c = '"' then some ⟨.string pieces.reverse :: x.tokens, .between⟩
    else if c = '\\' then some ⟨x.tokens, .escaped pieces⟩
    else if c.toNat < 0x20 then none
    else some ⟨x.tokens, .string (.char c :: pieces)⟩
  | .escaped pieces =>
    if c = 'u' then some ⟨x.tokens, .hex pieces 0 0⟩
    else (simpleEscape? c).map fun e => ⟨x.tokens, .string (.char e :: pieces)⟩
  | .hex pieces count value =>
    (hexDigit? c).map fun h =>
      if count = 3 then ⟨x.tokens, .string (.unit (value * 16 + h) :: pieces)⟩
      else ⟨x.tokens, .hex pieces (count + 1) (value * 16 + h)⟩

end Lexer

/-- The tokens of a text, or `none` if it cannot be cut into tokens. -/
def tokens? (text : String) : Option (List Token) :=
  ((text.toList.foldlM Lexer.step {}).bind Lexer.close?).map List.reverse

/-- The numeral that a text is. -/
def Numeral.ofText? (text : String) : Option Numeral :=
  match tokens? text with
  | some [.number n] => some n
  | _ => none

end ApiTypings.Json
