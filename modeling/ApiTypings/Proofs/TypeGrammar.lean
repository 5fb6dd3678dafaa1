import ApiTypings.Declaration.TypeExpr
import Mathlib.Data.Nat.Notation
/-!
# The grammar of types

A type of the declaration language is read from tokens by these rules:

* a *type* is a list of parameters in parentheses, `=>` and a type, or it is a union;
* a *union* is one or more intersections with `|` between them;
* an *intersection* is one or more operands with `&` between them;
* an *operand* is an operand and `[]`, or it is primary;
* *primary* are keywords, literals and object literals (atoms), names, names applied to types, tuples
  of types in brackets, which may end with `...`, an operand and `[]`, and types in parentheses.

`Reads φ s r` says that a phrase `φ` stands at the beginning of the tokens `s` and that `r` comes after
it. What is read is a `TypeTree`, in which unions and intersections have several items and parentheses
leave no trace.

That a type can be read in one way only is shown in `ApiTypings.Proofs.Unambiguity`.
-/

namespace ApiTypings

/-! ### Trees and tokens -/

/-- A type as its operands are grouped. -/
inductive TypeTree
  /-- A keyword, a literal or an object literal. -/
  | atom (text : String)
  | name (text : String) (arguments : List TypeTree)
  | array (element : TypeTree)
  | tuple (elements : List TypeTree) (rest : Option TypeTree)
  | intersection (items : List TypeTree)
  | union (items : List TypeTree)
  | arrow (parameters : List (Parameter TypeTree)) (returns : TypeTree)

namespace TypeTree

/-- The tree of types with `|` between them. -/
def unionOf : List TypeTree → TypeTree
  | [only] => only
  | items => union items

/-- The tree of types with `&` between them. -/
def intersectionOf : List TypeTree → TypeTree
  | [only] => only
  | items => intersection items

theorem intersectionOf_eq {ts : List TypeTree} (h : 2 ≤ ts.length) :
    intersectionOf ts = .intersection ts := by
  cases ts with
  | nil => cases h
  | cons t ts =>
    cases ts with
    | nil => exact absurd h (by simp)
    | cons _ _ => rfl

theorem unionOf_eq {ts : List TypeTree} (h : 2 ≤ ts.length) : unionOf ts = .union ts := by
  cases ts with
  | nil => cases h
  | cons t ts =>
    cases ts with
    | nil => exact absurd h (by simp)
    | cons _ _ => rfl

end TypeTree

/-- The categories of types, from the loosest to the tightest. -/
inductive TypeCategory
  | type
  | union
  | intersection
  | operand
  | primary
  deriving DecidableEq

/-- What stands between several types. -/
inductive TypeSeparator
  | comma
  | amp
  | bar
  deriving DecidableEq

/-- The category of types that stand on the sides of a separator. -/
def TypeSeparator.items : TypeSeparator → TypeCategory
  | comma => .type
  | amp => .operand
  | bar => .intersection

theorem TypeSeparator.items_ne_type {sep : TypeSeparator} (h : sep ≠ comma) : sep.items ≠ .type := by
  cases sep with
  | comma => exact absurd rfl h
  | amp | bar => decide

/-- A token of a type. -/
inductive TypeToken
  | atom (text : String)
  | name (text : String)
  | separator (s : TypeSeparator)
  | openParen
  | closeParen
  | openBracket
  | closeBracket
  | openAngle
  | closeAngle
  | dots
  | question
  | colon
  | arrow
  deriving DecidableEq

/-! ### The rules -/

/-- What can be read: a type of a category, several types with a separator between them, a parameter,
or several parameters. -/
inductive TypePhrase
  | one (c : TypeCategory) (t : TypeTree)
  | several (separator : TypeSeparator) (ts : List TypeTree)
  | parameter (p : Parameter TypeTree)
  | parameters (ps : List (Parameter TypeTree))

open TypeToken

/-- A phrase stands at the beginning of `s`, and `r` comes after it. -/
inductive Reads : TypePhrase → List TypeToken → List TypeToken → Prop
  | arrow {ps t s s' r} (hparameters : Reads (.parameters ps) s (closeParen :: .arrow :: s'))
      (hreturns : Reads (.one .type t) s' r) : Reads (.one .type (.arrow ps t)) (openParen :: s) r
  | ofUnion {t s r} (h : Reads (.one .union t) s r) : Reads (.one .type t) s r
  | alternatives {ts s r} (h : Reads (.several .bar ts) s r) :
      Reads (.one .union (.unionOf ts)) s r
  | conjuncts {ts s r} (h : Reads (.several .amp ts) s r) :
      Reads (.one .intersection (.intersectionOf ts)) s r
  | array {t s r} (h : Reads (.one .operand t) s (openBracket :: closeBracket :: r)) :
      Reads (.one .operand (.array t)) s r
  | ofPrimary {t s r} (h : Reads (.one .primary t) s r) : Reads (.one .operand t) s r
  | atom {x r} : Reads (.one .primary (.atom x)) (.atom x :: r) r
  | name {x r} : Reads (.one .primary (.name x [])) (.name x :: r) r
  | applied {x ts s r} (h : Reads (.several .comma ts) s (closeAngle :: r)) :
      Reads (.one .primary (.name x ts)) (.name x :: openAngle :: s) r
  | parens {t s r} (h : Reads (.one .type t) s (closeParen :: r)) :
      Reads (.one .primary t) (openParen :: s) r
  | emptyTuple {r} : Reads (.one .primary (.tuple [] none)) (openBracket :: closeBracket :: r) r
  | tuple {ts s r} (h : Reads (.several .comma ts) s (closeBracket :: r)) :
      Reads (.one .primary (.tuple ts none)) (openBracket :: s) r
  | openTuple {ts t s s' r} (h : Reads (.several .comma ts) s (separator .comma :: dots :: s'))
      (hrest : Reads (.one .operand t) s' (openBracket :: closeBracket :: closeBracket :: r)) :
      Reads (.one .primary (.tuple ts (some t))) (openBracket :: s) r
  | restTuple {t s r}
      (hrest : Reads (.one .operand t) s (openBracket :: closeBracket :: closeBracket :: r)) :
      Reads (.one .primary (.tuple [] (some t))) (openBracket :: dots :: s) r
  | single {sep t s r} (h : Reads (.one (TypeSeparator.items sep) t) s r) :
      Reads (.several sep [t]) s r
  | more {sep t ts s s' r} (h : Reads (.one (TypeSeparator.items sep) t) s (separator sep :: s'))
      (hmore : Reads (.several sep ts) s' r) : Reads (.several sep (t :: ts)) s r
  | required {x t s r} (h : Reads (.one .type t) s r) :
      Reads (.parameter ⟨x, false, t⟩) (.name x :: colon :: s) r
  | optional {x t s r} (h : Reads (.one .type t) s r) :
      Reads (.parameter ⟨x, true, t⟩) (.name x :: question :: colon :: s) r
  | noParameters {r} : Reads (.parameters []) r r
  | lastParameter {p s r} (h : Reads (.parameter p) s r) : Reads (.parameters [p]) s r
  | parameters {p q ps s s' r} (h : Reads (.parameter p) s (separator .comma :: s'))
      (hmore : Reads (.parameters (q :: ps)) s' r) : Reads (.parameters (p :: q :: ps)) s r

/-- What can be read as a type of a category can be read as a type. -/
theorem Reads.asType {c : TypeCategory} {t : TypeTree} {s r : List TypeToken}
    (h : Reads (.one c t) s r) : Reads (.one .type t) s r := by
  have hintersection {t : TypeTree} (h : Reads (.one .intersection t) s r) :
      Reads (.one .type t) s r := .ofUnion (.alternatives (.single h))
  have hoperand {t : TypeTree} (h : Reads (.one .operand t) s r) : Reads (.one .type t) s r :=
    hintersection (.conjuncts (.single h))
  cases c with
  | type => exact h
  | union => exact .ofUnion h
  | intersection => exact hintersection h
  | operand => exact hoperand h
  | primary => exact hoperand (.ofPrimary h)

end ApiTypings
