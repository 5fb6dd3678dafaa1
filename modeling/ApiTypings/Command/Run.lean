import ApiTypings.Command.Arguments
import ApiTypings.Command.Discovery
/-!
# Running the command

A run discovers the schema files, loads the feature files and the history, parses the schema files
in their order and compiles them. The first failure ends it.

`Arguments.compile` is the run as a function of what is found at paths. `Compilation.outputs` are
the files that are to be written afterwards, and `Arguments.run` writes them to a file tree.
-/

namespace ApiTypings

/-! ### Errors -/

/-- A failure of a run. -/
inductive RunError
  | discovery (e : DiscoveryError)
  | noSchemaFiles
  /-- The feature file that has to be there is not. -/
  | missing (path : String)
  | unreadable (path : String)
  | featureFile (path : String) (e : FeatureError)
  | historyFile (path : String) (e : FeatureError)
  | schemaFile (path : String) (e : SchemaError)
  | compile (e : CompileError)
  | write (e : FileTree.WriteError)
  deriving DecidableEq, Repr

/-- The wording of an error. Why a file cannot be read or written is not told. -/
def RunError.message : RunError → String
  | discovery e => e.message
  | noSchemaFiles => "no schema files found"
  | missing path => "missing " ++ path
  | unreadable path => "failed to read " ++ path ++ ": <io>"
  | featureFile path e => "invalid feature file " ++ path ++ ": " ++ e.message
  | historyFile path e => "invalid history file " ++ path ++ ": " ++ e.message
  | schemaFile path e => "failed to parse " ++ path ++ ": " ++ e.message
  | compile e => e.message
  | write (.directory path) => "failed to create directory " ++ path ++ ": <io>"
  | write (.file path) => "failed to write " ++ path ++ ": <io>"

/-! ### Loading -/

namespace Files

/-- The text of a file. -/
def read (files : Files) (path : String) : Except RunError String :=
  match files path with
  | some (.file (some text)) => .ok text
  | _ => .error (.unreadable path)

/-- Whether there is a file at a path. -/
def isFile (files : Files) (path : String) : Bool :=
  (files path).any (!·.isDirectory)

/-- The path of the feature file of a kind. -/
def featureFile (directory : String) (kind : FeatureKind) : String :=
  entryPath directory kind.fileName

/-- The feature tables of the files of a directory. Only the file of the `api` features has to be
there. -/
def loadFeatures (files : Files) (directory : String) :
    List FeatureKind → FeatureTable → Except RunError FeatureTable
  | [], t => .ok t
  | kind :: kinds, t => do
    let path := featureFile directory kind
    if files.isFile path then
      match t.load kind (← files.read path) with
      | (t, none) => loadFeatures files directory kinds t
      | (_, some e) => .error (.featureFile path e)
    else if kind = .api then .error (.missing path)
    else loadFeatures files directory kinds t

/-- The history of a file. -/
def loadHistory (files : Files) (path : String) : Except RunError History := do
  (History.ofText (← files.read path)).mapError (.historyFile path)

/-- The namespaces of a schema file. -/
def parseSchema (files : Files) (path : String) : Except RunError (List Namespace) := do
  (ApiTypings.parseSchema (← files.read path)).mapError (.schemaFile path)

end Files

/-! ### Compiling -/

/-- What a run has made. -/
structure Compilation where
  declarations : String
  /-- The number of schema files. -/
  files : Nat
  /-- The number of namespaces before anything was dropped. -/
  namespaces : Nat
  /-- The declared symbols, if they were asked for. -/
  symbols : Option SymbolTable
  deriving Repr

/-- Compiles what the arguments name. -/
def Arguments.compile (a : Arguments) (files : Files) : Except RunError Compilation := do
  let paths ← (discover files a.inputs).mapError .discovery
  if paths.isEmpty then throw .noSchemaFiles
  let table ← files.loadFeatures a.features FeatureKind.all {}
  let history ← a.history.mapM files.loadHistory
  let namespaces := (← paths.mapM files.parseSchema).flatten
  let compiler : Compiler :=
    { resolver := { table := table, options := a.resolverOptions, history := history }
      render := a.renderOptions }
  let (declarations, symbols) ← (compiler.compile namespaces).mapError .compile
  return {
    declarations := declarations
    files := paths.length
    namespaces := namespaces.length
    symbols := if a.symbols.isSome then some symbols else none }

/-! ### Writing -/

/-- The files to be written, each a path and a text, in the order of writing. -/
def Compilation.outputs (c : Compilation) (a : Arguments) : List (String × String) :=
  (a.output.map fun path => (path, c.declarations)).toList
    ++ (a.symbols.bind fun path => c.symbols.map fun t => (path, t.toJson.indented 0)).toList

/-- Runs in a file tree. The answer is what was made and the tree with the files that were written.
-/
def Arguments.run (a : Arguments) (t : FileTree) : Except RunError (Compilation × FileTree) := do
  let compilation ← a.compile t.find?
  let written ← (t.writeAll (compilation.outputs a)).mapError .write
  return (compilation, written)

end ApiTypings
