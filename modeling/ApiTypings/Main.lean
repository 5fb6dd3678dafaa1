import ApiTypings.Command.Run
/-!
# The command line program

The words of the command line say what to compile. The paths of the files that lie in directories
are read from standard input, one a line, as a search for files lists them; files that the command
line names need not be listed. The declarations go to the output file or to standard output.

Everything that is decided is decided by `Arguments.ofWords` and `Arguments.compile`.
-/

namespace ApiTypings.Main

/-- What is printed for `--help`. -/
def usage : String :=
  "Compile extension API schemas into a declaration file\n\n"
    ++ "Usage: apitypings [OPTIONS] --features <FEATURES> <INPUTS>...\n"
    ++ "The files below directories are listed on standard input, one path a line.\n"

/-- What is printed for `--version`. -/
def version : String := "apitypings 0.1.0\n"

/-- What is printed for arguments that the program does not run with. -/
def fault : ArgumentError → String
  | .missingRequired => "error: an input and --features are required\n"
  | .conflict => "error: an argument cannot be given twice, or with another one\n"
  | .unknown => "error: unexpected argument\n"
  | .missingValue => "error: a value is required\n"
  | .notANumber => "error: a value is not a number\n"
  | .unexpectedValue => "error: a flag takes no value\n"
  | .notice _ => ""

/-- The lines of a stream. -/
partial def lines (stream : IO.FS.Stream) (before : List String) : IO (List String) := do
  let line ← stream.getLine
  if line = "" then return before.reverse
  else lines stream ((String.ofList (line.toList.filter (· ≠ '\n'))) :: before)

/-- The text of a file, with its path. -/
def readFile (path : String) : IO (Option (String × Option String)) := do
  try return some (path, some (← IO.FS.readFile path))
  catch _ => return none

/-- Writes a file, with the directories that it needs. -/
def writeFile (path text : String) : IO Unit := do
  if let some parent := parentPath? path then
    if parent ≠ "" then IO.FS.createDirAll parent
  IO.FS.writeFile path text

/-- Compiles and writes what is asked for. -/
def runWith (a : Arguments) : IO UInt32 := do
  let listed ← lines (← IO.getStdin) []
  let named := a.inputs ++ a.history.toList ++ FeatureKind.all.map (Files.featureFile a.features)
  let texts ← (listed ++ named).filterMapM readFile
  match a.compile (Files.ofList texts) with
  | .error e =>
    IO.eprintln ("error: " ++ e.message)
    return 1
  | .ok compilation =>
    if a.output.isNone then IO.print compilation.declarations
    (compilation.outputs a).forM fun (path, text) => writeFile path text
    if a.output.isSome then
      IO.eprintln ("compiled " ++ toString compilation.namespaces ++ " namespaces from "
        ++ toString compilation.files ++ " files")
    return 0

end ApiTypings.Main

/-- Runs with the words of the command line. -/
def main (words : List String) : IO UInt32 := do
  match ApiTypings.Arguments.ofWords words with
  | .ok a => ApiTypings.Main.runWith a
  | .error (.notice .help) =>
    IO.print ApiTypings.Main.usage
    return 0
  | .error (.notice .version) =>
    IO.print ApiTypings.Main.version
    return 0
  | .error e =>
    IO.eprint (ApiTypings.Main.fault e)
    return 2
