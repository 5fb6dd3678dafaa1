import ApiTypings.Command.FileTree
/-!
# Discovering schema files

An input is a schema file, whatever its name, or a directory that is searched for schema files at
any depth. Feature files may lie among the schema files; their names start with an underscore, and
the search passes over them.

`inputFiles` is what an input stands for, `discover` joins what all inputs stand for. A search ends
at a directory whose path is too long to be looked up.
-/

namespace ApiTypings

/-! ### Errors -/

/-- A failure to discover schema files. -/
inductive DiscoveryError
  /-- Nothing is at an input. -/
  | notFound (input : String)
  /-- A directory below an input cannot be searched, because its path is too long. -/
  | tooLong (input directory : String)
  deriving DecidableEq, Repr

/-- The wording of an error. -/
def DiscoveryError.message : DiscoveryError → String
  | notFound input => "input not found: " ++ input
  | tooLong input directory => "failed to walk " ++ input ++ ": IO error for operation on "
    ++ directory ++ ": File name too long (os error 36): <io>"

/-! ### What is found -/

/-- What is found at a path. -/
abbrev Files := String → Option FileTree

/-- What is found where there are files with these paths and texts, and the directories that hold
them. Paths name the same file if they have the same steps. -/
def Files.ofList (texts : List (String × Option String)) : Files := fun path =>
  let steps := pathSteps path
  let below := texts.filterMap fun (p, text) =>
    (steps.isPrefixOf? (pathSteps p)).map fun rest =>
      (rest.filterMap PathStep.name?, FileTree.file text)
  match below with
  | [] => none
  | ([], file) :: _ => some file
  | below => some (below.foldl (fun t (names, file) => t.put names file) default)

/-! ### Searching a directory -/

/-- The ending of the names of schema files. -/
def schemaEnding : String := ".json"

/-- What the names of feature files start with. -/
def featureFileMark : Char := '_'

/-- Whether the search takes a file of this name. The ending may not be the whole name. -/
def isSchemaName (name : String) : Bool :=
  let cs := name.toList
  schemaEnding.toList.isSuffixOf cs && schemaEnding.length < cs.length
    && cs.head? ≠ some featureFileMark

mutual

/-- The paths of the schema files of a tree that is the entry `name` of a directory, or the path of
a directory that is too long. -/
def FileTree.schemaFiles (directory name : String) : FileTree → Except String (List String)
  | .file _ => .ok (if isSchemaName name then [entryPath directory name] else [])
  | .directory entries =>
    let path := entryPath directory name
    if isPathLength path then schemaFilesBelow path entries else .error path

/-- The paths of the schema files among the entries of a directory, at any depth, or the first path
of a directory that is too long. -/
def FileTree.schemaFilesBelow (directory : String) :
    List (String × FileTree) → Except String (List String)
  | [] => .ok []
  | (name, t) :: rest => do
    let found ← t.schemaFiles directory name
    return found ++ (← schemaFilesBelow directory rest)

end

/-! ### All inputs -/

/-- The paths of the schema files that an input stands for. -/
def inputFiles (files : Files) (input : String) : Except DiscoveryError (List String) :=
  match files input with
  | none => .error (.notFound input)
  | some (.file _) => .ok [input]
  | some (.directory entries) => (FileTree.schemaFilesBelow input entries).mapError (.tooLong input)

/-- Whether a path is not after another one. -/
def pathUpTo (a b : String) : Bool :=
  stepsUpTo (pathSteps a) (pathSteps b)

/-- Paths without those that have the same steps as the path before. -/
def distinctNeighbours : List String → List String
  | [] => []
  | path :: rest =>
    path :: (distinctNeighbours rest).dropWhile fun other => pathSteps other = pathSteps path

/-- The paths of the schema files that inputs stand for, in the order of their steps, or the error
of the first input that has one. Of paths with the same steps only the first stays. -/
def discover (files : Files) (inputs : List String) : Except DiscoveryError (List String) := do
  let found ← inputs.mapM (inputFiles files)
  return distinctNeighbours (found.flatten.mergeSort pathUpTo)

end ApiTypings
