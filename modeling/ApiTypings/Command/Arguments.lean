import ApiTypings.Compiler
/-!
# Command-line arguments

The command line names the inputs and sets options. Words are read one after another
(`Reading.word`). A word is a flag, an option, the value of the option before it or an input; after
a lone `--` all words are values or inputs.

**When a value counts.** The value of an option is looked at when the next known flag or option or
the first input after it comes, or at the end. Of two faults the one that is met first in this order
is reported: a bad value is overtaken by an unknown option that follows it, but not by a flag that
is given twice.
-/

namespace ApiTypings

/-! ### What can be given -/

/-- The options that take a value. -/
inductive OptionKey
  | features
  | history
  | output
  | symbols
  | rootNamespace
  | indent
  | jobs
  deriving DecidableEq, Repr, Inhabited

namespace OptionKey

/-- All options. -/
def all : List OptionKey := [features, history, output, symbols, rootNamespace, indent, jobs]

/-- The name of an option, after two dashes. -/
def name : OptionKey → String
  | features => "features"
  | history => "history"
  | output => "output"
  | symbols => "symbols"
  | rootNamespace => "root-namespace"
  | indent => "indent"
  | jobs => "jobs"

/-- The letter of an option, after one dash. -/
def letter? : OptionKey → Option Char
  | features => some 'f'
  | output => some 'o'
  | jobs => some 'j'
  | _ => none

/-- The option of a name. -/
def ofName? (name : String) : Option OptionKey :=
  all.find? (·.name = name)

/-- The option of a letter. -/
def ofLetter? (letter : Char) : Option OptionKey :=
  all.find? (·.letter? = some letter)

end OptionKey

/-- The flags that change how the program runs. -/
inductive Flag
  | noRoot
  | sort
  | allowInternal
  | allowNonRegularSessions
  deriving DecidableEq, Repr, Inhabited

namespace Flag

/-- All flags. -/
def all : List Flag := [noRoot, sort, allowInternal, allowNonRegularSessions]

/-- The name of a flag, after two dashes. -/
def name : Flag → String
  | noRoot => "no-root"
  | sort => "sort"
  | allowInternal => "allow-internal"
  | allowNonRegularSessions => "allow-non-regular-sessions"

/-- The flag of a name. -/
def ofName? (name : String) : Option Flag :=
  all.find? (·.name = name)

end Flag

/-- What the program can be asked to tell instead of running. -/
inductive Notice
  | help
  | version
  deriving DecidableEq, Repr, Inhabited

/-- The notice of a name, after two dashes. -/
def Notice.ofName? : String → Option Notice
  | "help" => some help
  | "version" => some version
  | _ => none

/-- The notice of a letter, after one dash. -/
def Notice.ofLetter? : Char → Option Notice
  | 'h' => some help
  | 'V' => some version
  | _ => none

/-! ### Faults -/

/-- Why the program does not run with the arguments. -/
inductive ArgumentError
  /-- A notice was asked for. -/
  | notice (n : Notice)
  /-- There are no inputs or no feature directory. -/
  | missingRequired
  /-- Something is given twice, or two options exclude one another. -/
  | conflict
  | unknown
  /-- An option without a value, or an empty path. -/
  | missingValue
  | notANumber
  /-- A flag with a value. -/
  | unexpectedValue
  deriving DecidableEq, Repr

/-! ### Words -/

/-- What a word is by its form. -/
inductive Word
  /-- Two dashes. -/
  | separator
  | flag (f : Flag)
  | notice (n : Notice)
  /-- An option, with its value if the word holds one. -/
  | option (key : OptionKey) (value : Option String)
  /-- A flag or a notice with a value. -/
  | valuedFlag
  | unknown
  | plain
  deriving DecidableEq, Repr

namespace Word

/-- The word after two dashes. What follows the first `=` is a value. -/
def ofLong (text : String) : Word :=
  let (name, value) := match splitFirst? '=' text with
    | some (name, value) => (name, some value)
    | none => (text, none)
  match OptionKey.ofName? name, Flag.ofName? name, Notice.ofName? name, value with
  | some key, _, _, value => option key value
  | _, some f, _, none => flag f
  | _, _, some n, none => notice n
  | none, none, none, _ => unknown
  | _, _, _, some _ => valuedFlag

/-- The value that follows the letter of an option in its word, less an `=` in front. -/
def attached? : List Char → Option String
  | [] => none
  | '=' :: cs => some (String.ofList cs)
  | cs => some (String.ofList cs)

/-- The word of a letter after one dash and what follows the letter. -/
def ofShort (letter : Char) (rest : List Char) : Word :=
  match OptionKey.ofLetter? letter, Notice.ofLetter? letter with
  | some key, _ => option key (attached? rest)
  | _, some n => notice n
  | _, _ => unknown

/-- What a word is. A lone dash is a plain word. -/
def ofText (text : String) : Word :=
  match text.toList with
  | ['-', '-'] => separator
  | '-' :: '-' :: cs => ofLong (String.ofList cs)
  | '-' :: letter :: rest => ofShort letter rest
  | _ => plain

end Word

/-! ### Values -/

/-- What has been given so far, with values that were looked at. -/
structure Given where
  inputs : List String := []
  features : Option String := none
  history : Option String := none
  output : Option String := none
  symbols : Option String := none
  rootNamespace : Option String := none
  indent : Option Nat := none
  jobs : Option Nat := none
  flags : List Flag := []
  deriving DecidableEq, Repr, Inhabited

/-- A path, which may not be empty. -/
def pathValue (text : String) : Except ArgumentError String :=
  if text = "" then .error .missingValue else .ok text

/-- A number of 64 bits: digits, with a plus in front or not. -/
def numberValue (text : String) : Except ArgumentError Nat :=
  let digits := match text.toList with
    | '+' :: cs => cs
    | cs => cs
  let number := digits.foldl (fun n c => n * 10 + (c.toNat - '0'.toNat)) 0
  if digits.isEmpty || digits.any (!·.isDigit) || Nat.pow 2 64 ≤ number then .error .notANumber
  else .ok number

/-- The value of something that may be given once. -/
def once {α : Type} (earlier : Option α) (value : Except ArgumentError α) :
    Except ArgumentError (Option α) :=
  if earlier.isSome then .error .conflict else value.map some

namespace Given

/-- Sets the value of an option. -/
def set (g : Given) (key : OptionKey) (value : String) : Except ArgumentError Given :=
  match key with
  | .features => return { g with features := ← once g.features (pathValue value) }
  | .history => return { g with history := ← once g.history (pathValue value) }
  | .output => return { g with output := ← once g.output (pathValue value) }
  | .symbols => return { g with symbols := ← once g.symbols (pathValue value) }
  | .rootNamespace => return { g with rootNamespace := ← once g.rootNamespace (.ok value) }
  | .indent => return { g with indent := ← once g.indent (numberValue value) }
  | .jobs => return { g with jobs := ← once g.jobs (numberValue value) }

/-- Sets a flag. -/
def raise (g : Given) (f : Flag) : Except ArgumentError Given :=
  if g.flags.contains f then .error .conflict else .ok { g with flags := f :: g.flags }

/-- Adds inputs. -/
def add (g : Given) (inputs : List String) : Except ArgumentError Given := do
  return { g with inputs := g.inputs ++ (← inputs.mapM pathValue) }

end Given

/-! ### Reading -/

/-- What has been read and not looked at yet. -/
inductive Unsettled
  | nothing
  /-- An option and the value that followed it, if one did. -/
  | option (key : OptionKey) (value : Option String)
  | inputs (paths : List String)
  deriving DecidableEq, Repr, Inhabited

/-- Looks at what was left unsettled. -/
def Unsettled.settle (g : Given) : Unsettled → Except ArgumentError Given
  | nothing => .ok g
  | option _ none => .error .missingValue
  | option key (some value) => g.set key value
  | inputs paths => g.add paths

/-- How far the words have been read. -/
structure Reading where
  given : Given := {}
  unsettled : Unsettled := .nothing
  /-- The separator has been passed. -/
  separated : Bool := false
  deriving DecidableEq, Repr, Inhabited

namespace Reading

/-- What has been given, with everything settled. -/
def settled (r : Reading) : Except ArgumentError Given :=
  r.unsettled.settle r.given

/-- Reads an input. -/
def input (r : Reading) (text : String) : Except ArgumentError Reading :=
  match r.unsettled with
  | .inputs paths => return { r with unsettled := .inputs (paths ++ [text]) }
  | _ => return { r with given := ← r.settled, unsettled := .inputs [text] }

/-- Reads a word that is no option: the value of the option before it, or an input. -/
def plain (r : Reading) (text : String) : Except ArgumentError Reading :=
  match r.unsettled with
  | .option key none => return { r with unsettled := .option key (some text) }
  | _ => r.input text

/-- Reads a word. -/
def word (r : Reading) (text : String) : Except ArgumentError Reading :=
  if r.separated then r.input text
  else
    match Word.ofText text with
    | .separator => return { r with separated := true }
    | .flag f => return { r with given := ← (← r.settled).raise f, unsettled := .nothing }
    | .notice n => do
      discard r.settled
      throw (.notice n)
    | .option key none => return { r with given := ← r.settled, unsettled := .option key none }
    | .option key (some value) =>
      return { r with given := ← (← r.settled).set key value, unsettled := .nothing }
    | .valuedFlag => throw .unexpectedValue
    | .unknown => throw .unknown
    | .plain => r.plain text

end Reading

/-! ### The arguments -/

/-- How many spaces a level of indentation has unless the arguments say otherwise. -/
def defaultSpaces : Nat := 2

/-- The arguments of a run. -/
structure Arguments where
  /-- Schema files, and directories that hold some. -/
  inputs : List String
  /-- The directory of the feature files. -/
  features : String
  history : Option String := none
  /-- Where the declarations go. -/
  output : Option String := none
  /-- Where the symbols go. -/
  symbols : Option String := none
  root : Option String := some defaultRoot
  sort : Bool := false
  /-- The number of spaces of one level of indentation. -/
  indent : Nat := defaultSpaces
  allowInternal : Bool := false
  allowNonRegularSessions : Bool := false
  /-- How many workers may be used. The outcome does not depend on it. -/
  jobs : Option Nat := none
  deriving DecidableEq, Repr, Inhabited

/-- The arguments of a run, if nothing is missing. Naming a root namespace and refusing one is a
conflict, which counts before what is missing. -/
def Given.arguments (g : Given) : Except ArgumentError Arguments :=
  if g.rootNamespace.isSome && g.flags.contains .noRoot then .error .conflict
  else
    match g.inputs, g.features with
    | [], _ => .error .missingRequired
    | _, none => .error .missingRequired
    | inputs, some features => .ok {
        inputs := inputs
        features := features
        history := g.history
        output := g.output
        symbols := g.symbols
        root := if g.flags.contains .noRoot then none else g.rootNamespace <|> some defaultRoot
        sort := g.flags.contains .sort
        indent := g.indent.getD defaultSpaces
        allowInternal := g.flags.contains .allowInternal
        allowNonRegularSessions := g.flags.contains .allowNonRegularSessions
        jobs := g.jobs }

namespace Arguments

/-- The arguments that the words of a command line give. -/
def ofWords (words : List String) : Except ArgumentError Arguments := do
  let reading ← words.foldlM Reading.word {}
  (← reading.settled).arguments

/-- The gates that the arguments ask for. -/
def resolverOptions (a : Arguments) : ResolverOptions where
  rejectNonRegularSessions := !a.allowNonRegularSessions
  rejectInternal := !a.allowInternal

/-- How the arguments ask to render. -/
def renderOptions (a : Arguments) : RenderOptions where
  root := a.root
  sortMembers := a.sort
  indent := "".pushn ' ' a.indent

end Arguments

end ApiTypings
