import ApiTypings.Declaration.Comment
import ApiTypings.Declaration.Writer
import ApiTypings.Schema.Model
/-!
# Type expressions

The types of the declaration language as a tree, and their text. The tree holds no parentheses: they
are put where the text needs them. A place where a compound type would bind wrongly, such as an
element of an array or an item of a union, is *tight*, and a compound type in a tight place is
parenthesised.

**Layout.** Object types span several lines, one for every member and for every line of its comment.
`TypeExpr.text` is given the depth of the line on which the type starts.
-/

namespace ApiTypings

/-! ### The tree -/

/-- A parameter of a function type. -/
structure Parameter (τ : Type) where
  name : String
  optional : Bool
  type : τ
  deriving Repr

/-- A member of an object type. -/
inductive ObjectMember (τ : Type)
  | property (doc : Doc) (key : String) (optional : Bool) (type : τ)
  | method (doc : Doc) (key : String) (parameters : List (Parameter τ)) (returns : τ)
  /-- The object can be called. -/
  | call (parameters : List (Parameter τ)) (returns : τ)
  /-- The object has further members of this type. -/
  | index (type : τ)
  deriving Repr

/-- A type of the declaration language. -/
inductive TypeExpr
  | keyword (word : String)
  | literal (value : Literal)
  | named (target : Reference) (arguments : List TypeExpr)
  | array (element : TypeExpr)
  /-- A tuple, and after its elements any number of elements of the type `rest`, if there is one. -/
  | tuple (elements : List TypeExpr) (rest : Option TypeExpr)
  | intersection (items : List TypeExpr)
  | union (items : List TypeExpr)
  | arrow (parameters : List (Parameter TypeExpr)) (returns : TypeExpr)
  | object (members : List (ObjectMember TypeExpr))
  deriving Repr

instance : Inhabited TypeExpr := ⟨.keyword "void"⟩

/-! ### The text -/

/-- The text of a literal. -/
def Literal.text : Literal → String
  | string s => Json.quote s
  | number n => n.text
  | boolean b => if b then "true" else "false"

/-- Parentheses round a compound type in a tight place. -/
def parenthesized (tight : Bool) (s : String) : String :=
  if tight then "(" ++ s ++ ")" else s

/-- A comma-separated list. -/
def commaSeparated (items : List String) : String :=
  ", ".intercalate items

/-- A name and what may stand after it: a question mark. -/
def optionalMark (optional : Bool) : String :=
  if optional then "?" else ""

/-- The lines of a comment at a depth. -/
def Doc.indentedLines (d : Doc) (unit : String) (level : Nat) : List String :=
  d.lines.map (indentation unit level ++ ·)

namespace TypeExpr

mutual

/-- The text of a type on a line at depth `level`. -/
def text (unit : String) (level : Nat) (tight : Bool) : TypeExpr → String
  | keyword word => word
  | literal value => value.text
  | named target [] => target.name
  | named target (a :: as) =>
    target.name ++ "<" ++ commaSeparated (texts unit level false (a :: as)) ++ ">"
  | array element => text unit level true element ++ "[]"
  | tuple elements none => "[" ++ commaSeparated (texts unit level false elements) ++ "]"
  | tuple elements (some rest) =>
    "[" ++ commaSeparated
      (texts unit level false elements ++ ["..." ++ text unit level true rest ++ "[]"]) ++ "]"
  | intersection items => parenthesized tight (" & ".intercalate (texts unit level true items))
  | union items => parenthesized tight (" | ".intercalate (texts unit level true items))
  | arrow parameters returns =>
    parenthesized tight ("(" ++ commaSeparated (parameterTexts unit level parameters) ++ ") => "
      ++ text unit level false returns)
  | object [] => "\x7b\x7d"
  | object (m :: ms) =>
    "\x7b\n" ++ "\n".intercalate (memberLines unit (level + 1) (m :: ms)) ++ "\n"
      ++ indentation unit level ++ "\x7d"

/-- The texts of several types. -/
def texts (unit : String) (level : Nat) (tight : Bool) : List TypeExpr → List String
  | [] => []
  | t :: ts => text unit level tight t :: texts unit level tight ts

/-- The texts of parameters. -/
def parameterTexts (unit : String) (level : Nat) : List (Parameter TypeExpr) → List String
  | [] => []
  | ⟨name, optional, type⟩ :: ps =>
    (name ++ optionalMark optional ++ ": " ++ text unit level false type)
      :: parameterTexts unit level ps

/-- The lines of members at depth `level`. -/
def memberLines (unit : String) (level : Nat) : List (ObjectMember TypeExpr) → List String
  | [] => []
  | .property doc key optional type :: ms =>
    doc.indentedLines unit level
      ++ (indentation unit level ++ key ++ optionalMark optional ++ ": "
        ++ text unit level false type ++ ";")
      :: memberLines unit level ms
  | .method doc key parameters returns :: ms =>
    doc.indentedLines unit level
      ++ (indentation unit level ++ key ++ "(" ++ commaSeparated (parameterTexts unit level parameters)
        ++ "): " ++ text unit level false returns ++ ";")
      :: memberLines unit level ms
  | .call parameters returns :: ms =>
    (indentation unit level ++ "(" ++ commaSeparated (parameterTexts unit level parameters)
      ++ "): " ++ text unit level false returns ++ ";")
      :: memberLines unit level ms
  | .index type :: ms =>
    (indentation unit level ++ "[key: string]: " ++ text unit level false type ++ ";")
      :: memberLines unit level ms

end

/-! ### Building -/

/-- A type of one word. -/
def primitive (word : Primitive) : TypeExpr :=
  keyword word.keyword

/-- The type of what is not there. -/
def void : TypeExpr := primitive .void

/-- A type or `undefined`. -/
def orUndefined (t : TypeExpr) : TypeExpr :=
  union [t, primitive .undefined]

/-- A promise of a type. -/
def promise (t : TypeExpr) : TypeExpr :=
  named ⟨"Promise", true, false⟩ [t]

/-- The type of what every item admits. -/
def allOf : List TypeExpr → TypeExpr
  | [] => primitive .unknown
  | [only] => only
  | items => intersection items

/-- The type of what one of the items admits. -/
def oneOf : List TypeExpr → TypeExpr
  | [] => keyword "never"
  | [only] => only
  | items => union items

/-- How many tuple types, or leading elements of one, a bounded array is spelled with at most. -/
def maxTupleExpansion : Nat := 8

/-- Arrays of at least `min` and at most `max` elements. A narrow range is spelled as tuples, one
for every length. A wide one keeps its lower bound only, as far as it can be spelled. -/
def boundedArray (element : TypeExpr) (min : Nat) (max : Option Nat) : TypeExpr :=
  let open' := if min = 0 then array element
    else tuple (List.replicate (Nat.min min maxTupleExpansion) element) (some element)
  match max with
  | none => open'
  | some max =>
    if min ≤ max ∧ max - min < maxTupleExpansion then
      oneOf ((List.range (max - min + 1)).map fun extra =>
        tuple (List.replicate (min + extra) element) none)
    else open'

end TypeExpr

end ApiTypings
