/-!
# Paths

A path is a text of segments between slashes. What it names follows from its steps alone: repeated
slashes and inner dots are no steps, so that `s//a/./b` and `s/a/b` have the same steps. A leading
dot is one.

**Order.** Paths compare by their steps. A directory therefore stands with everything below it
before a sibling whose name goes on: `b/z` is before `b-c`, although `-` is before `/`.

**Limits.** A name of more than 255 bytes, or with a NUL character, is the name of nothing, and a
path of more than 4095 bytes cannot be looked up, whatever it leads to.
-/

namespace ApiTypings

/-! ### Steps -/

/-- One step of a path. -/
inductive PathStep
  /-- The slash that an absolute path starts with. -/
  | root
  /-- A leading dot. -/
  | here
  /-- Two dots. -/
  | up
  | name (text : String)
  deriving DecidableEq, Repr, Inhabited

namespace PathStep

/-- The place of a kind of step in the order of steps. -/
def rank : PathStep → Nat
  | root => 0
  | here => 1
  | up => 2
  | name _ => 3

/-- Whether a step is before another one. Names are in the order of their code points. -/
def precedes : PathStep → PathStep → Bool
  | name a, name b => a < b
  | a, b => a.rank < b.rank

/-- The name that a step goes to. -/
def name? : PathStep → Option String
  | name text => some text
  | _ => none

/-- The step of the first segment of a path. -/
def first? : String → Option PathStep
  | "" => some root
  | "." => some here
  | ".." => some up
  | s => some (name s)

/-- The step of any other segment, if it is one. -/
def inner? : String → Option PathStep
  | "" => none
  | "." => none
  | ".." => some up
  | s => some (name s)

end PathStep

/-- The texts between the slashes of a path. -/
def pathSegments (path : String) : List String :=
  (path.toList.splitOn '/').map String.ofList

/-- The steps of a path. -/
def pathSteps (path : String) : List PathStep :=
  match pathSegments path with
  | [] => []
  | [""] => []
  | first :: rest => (PathStep.first? first).toList ++ rest.filterMap PathStep.inner?

/-! ### Limits -/

/-- The most bytes of a name. -/
def maxNameBytes : Nat := 255

/-- The most bytes of a path. -/
def maxPathBytes : Nat := 4095

/-- Whether a file or a directory can have this name. -/
def isEntryName (name : String) : Bool :=
  name.utf8ByteSize ≤ maxNameBytes && !name.toList.contains '\x00'

/-- Whether a path is short enough to be looked up. -/
def isPathLength (path : String) : Bool :=
  path.utf8ByteSize ≤ maxPathBytes

/-! ### Order -/

/-- Whether steps are not after other ones. -/
def stepsUpTo : List PathStep → List PathStep → Bool
  | [], _ => true
  | _ :: _, [] => false
  | a :: as, b :: bs => a.precedes b || (a = b && stepsUpTo as bs)

/-! ### Building and taking apart -/

/-- The path of an entry of a directory. -/
def entryPath (directory name : String) : String :=
  if directory.toList.getLast? = some '/' then directory ++ name else directory ++ "/" ++ name

/-- Segments without those at the end that are no steps. The first segment always is one. -/
def trimSegments : List String → List String
  | [] => []
  | first :: rest => first :: (rest.reverse.dropWhile fun s => (PathStep.inner? s).isNone).reverse

/-- The path of the directory that holds what a path names; the empty path for a path of one step.
The root has none. -/
def parentPath? (path : String) : Option String :=
  match trimSegments (pathSegments path) with
  | [""] => none
  | ["", _] => some "/"
  | trimmed => some ("/".intercalate (trimSegments trimmed.dropLast))

end ApiTypings
