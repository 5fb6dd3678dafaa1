/-!
# Dotted names

A symbol of an interface is named by its place: `alarms.Alarm.name` is the property `name` of the
type `Alarm` of the namespace `alarms`. A dotted name is a `String`; this module says what its
segments, its last segment and its ancestors are, and how one dotted name is read relative to
another.

**Ancestors.** `ancestors p` lists the name itself and then every text before one of its dots, from
the longest to the shortest. Whatever looks for "the nearest definition" is a search in this list.
-/

namespace ApiTypings

/-! ### Building and splitting -/

/-- The name of the member `name` of what `parent` names. -/
def member (parent name : String) : String :=
  parent ++ "." ++ name

/-- The segments between the dots. There is always at least one. -/
def segments (path : String) : List String :=
  (path.toList.splitOn '.').map String.ofList

/-- The text after the last dot, if there is a dot. -/
def leaf? (path : String) : Option String :=
  match (segments path).reverse with
  | last :: _ :: _ => some last
  | _ => none

/-- The text before the first dot, or the whole name. -/
def firstSegment (path : String) : String :=
  String.ofList (path.toList.takeWhile (· ≠ '.'))

/-! ### Ancestors -/

/-- The names met on the way from `start` through segments below it, from the shortest to the
longest and without the last: the texts before the dots that lead to those segments. -/
def beforeDots (start : String) : List String → List String
  | [] => []
  | s :: rest => start :: beforeDots (member start s) rest

/-- The strict ancestors of a dotted name, nearest first. -/
def strictAncestors (path : String) : List String :=
  match segments path with
  | [] => []
  | first :: rest => (beforeDots first rest).reverse

/-- The name itself and its strict ancestors, nearest first. -/
def ancestors (path : String) : List String :=
  path :: strictAncestors path

/-! ### Relative names -/

/-- What follows `head` in `s`, if `s` starts with it. -/
def afterPrefix? (head s : String) : Option String :=
  (head.toList.isPrefixOf? s.toList).map String.ofList

/-- What follows `scope` and a dot in `name`, if `name` starts so: the name of a member of `scope`
as it is written inside `scope`. -/
def localName? (scope name : String) : Option String :=
  afterPrefix? (scope ++ ".") name

/-- The text before and after the first occurrence of a character. -/
def splitFirst? (c : Char) (s : String) : Option (String × String) :=
  match s.toList.dropWhile (· ≠ c) with
  | [] => none
  | _ :: rest => some (String.ofList (s.toList.takeWhile (· ≠ c)), String.ofList rest)

end ApiTypings
