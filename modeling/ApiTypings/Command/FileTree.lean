import ApiTypings.Command.Path
/-!
# File trees

A `FileTree` is a file or a directory of named trees. It is entered by a path, segment by segment,
from its root: each segment needs a directory to go on from, two dots go back, and nothing is found
outside the root. Names and paths keep to the limits of `ApiTypings.Command.Path`.

`FileTree.find?` is what a path names, and `FileTree.write` the tree after a file was written.
-/

namespace ApiTypings

/-- A file or a directory. -/
inductive FileTree
  /-- A file with its text, if it can be read as one. -/
  | file (text : Option String)
  | directory (entries : List (String × FileTree))
  deriving Repr

namespace FileTree

instance : Inhabited FileTree := ⟨.directory []⟩

/-- Whether this is a directory. -/
def isDirectory : FileTree → Bool
  | file _ => false
  | directory _ => true

/-! ### Places -/

/-- The tree at the end of a chain of names. -/
def at? : FileTree → List String → Option FileTree
  | t, [] => some t
  | file _, _ :: _ => none
  | directory entries, name :: rest => (entries.lookup name).bind (·.at? rest)

/-- The entries with the tree of a name given or changed. -/
def setEntry (name : String) (change : Option FileTree → FileTree) :
    List (String × FileTree) → List (String × FileTree)
  | [] => [(name, change none)]
  | (n, t) :: rest => if n = name then (n, change (some t)) :: rest else (n, t) :: setEntry name change rest

/-- The tree with another tree put at the end of a chain of names. Names on the way that are not
there become directories. -/
def put : FileTree → List String → FileTree → FileTree
  | _, [], new => new
  | file _, name :: rest, new => directory [(name, put default rest new)]
  | directory entries, name :: rest, new =>
    directory (setEntry name (fun old => put (old.getD default) rest new) entries)

/-! ### Paths -/

/-- The place that a segment leads to from a place, which has to be a directory. The place need not
be there yet, but its name has to be possible. -/
def enter? (t : FileTree) (here : List String) (segment : String) : Option (List String) :=
  if (t.at? here).any isDirectory then
    match PathStep.inner? segment with
    | none => some here
    | some .up => if here = [] then none else some here.dropLast
    | some _ => if isEntryName segment then some (here ++ [segment]) else none
  else none

/-- The segments of a path that is not absolute and is short enough to be looked up. -/
def relativeSegments? (path : String) : Option (List String) :=
  match pathSegments path with
  | [] => none
  | "" :: _ => none
  | segments => if isPathLength path then some segments else none

/-- The place that a path leads to. Only the places before the last are looked at. -/
def locate? (t : FileTree) (path : String) : Option (List String) :=
  (relativeSegments? path).bind fun segments => segments.foldlM t.enter? []

/-- What a path names. -/
def find? (t : FileTree) (path : String) : Option FileTree :=
  (t.locate? path).bind t.at?

/-! ### Writing -/

/-- The tree in which the place that a segment leads to is a directory, and that place. -/
def makeStep (state : FileTree × List String) (segment : String) : Option (FileTree × List String) := do
  let (t, here) := state
  let there ← t.enter? here segment
  match t.at? there with
  | none => return (t.put there default, there)
  | some (directory _) => return (t, there)
  | some (file _) => none

/-- The tree with a directory made at a path, and with those on the way. -/
def makeDirectory? (t : FileTree) (path : String) : Option FileTree :=
  (relativeSegments? path).bind fun segments => (segments.foldlM makeStep (t, [])).map (·.1)

/-- The tree with a file at a path. The directory of the file has to be there, and no directory may
be in the place of the file. -/
def putFile? (t : FileTree) (path text : String) : Option FileTree :=
  match (pathSegments path).getLast?.bind PathStep.inner? with
  | some (.name _) => do
    let place ← t.locate? path
    if (t.at? place).any isDirectory then none else return t.put place (file (some text))
  | _ => none

/-- A failure to write a file. -/
inductive WriteError
  | directory (path : String)
  | file (path : String)
  deriving DecidableEq, Repr

/-- The tree after a file was written, with the directories that it needs. -/
def write (t : FileTree) (path text : String) : Except WriteError FileTree :=
  let parent := (parentPath? path).getD ""
  let made := if parent = "" then some t else t.makeDirectory? parent
  match made with
  | none => .error (.directory parent)
  | some t =>
    match t.putFile? path text with
    | none => .error (.file path)
    | some t => .ok t

/-- The tree after files were written in turn. -/
def writeAll : List (String × String) → FileTree → Except WriteError FileTree
  | [], t => .ok t
  | (path, text) :: rest, t => do writeAll rest (← t.write path text)

end FileTree

end ApiTypings
