/-!
# Log formats

The format of the log is chosen by a name. Case does not matter, and every unknown name means plain
text.
-/

namespace ApiTypings

/-- How the log is written. -/
inductive LogFormat
  | text
  /-- An indented tree of what happens inside what. -/
  | tree
  /-- One JSON object a line. -/
  | json
  deriving DecidableEq, Repr, Inhabited

namespace LogFormat

/-- The format of a name. The names are made of letters that no letter beyond ASCII has as its
lower-case form, so that only ASCII letters have a case here. -/
def ofName (name : String) : LogFormat :=
  match name.toLower with
  | "tree" => tree
  | "json" => json
  | _ => text

/-- The name of a format. -/
def name : LogFormat → String
  | text => "text"
  | tree => "tree"
  | json => "json"

theorem ofName_name (f : LogFormat) : ofName f.name = f := by
  cases f <;> decide +kernel

end LogFormat

end ApiTypings
