/-!
# What can go wrong with features

Errors name their cause; `FeatureError.message` is the only place that words them. A symbol that is
not available is not an error.
-/

namespace ApiTypings

/-- What is wrong with the text or the value of a feature definition. -/
inductive FeatureDefect
  /-- The text is no JSON, or a value is not of the type that its place asks for. -/
  | json
  /-- A feature file is no object. -/
  | notAnObject
  /-- An entry of a feature file is neither a definition nor a list of definitions. -/
  | notADefinition (found : String)
  /-- A feature without any definition was to be used. -/
  | noVariants
  deriving DecidableEq, Repr

/-- A failure of reading or resolving features. -/
inductive FeatureError
  | malformed (id : String) (defect : FeatureDefect)
  | unknownPrefix (id : String)
  | ambiguous (id path : String) (variants : Nat)
  | cycle (chain : List String)
  deriving DecidableEq, Repr

/-- The wording of a defect. What is wrong inside a JSON text is not told. -/
def FeatureDefect.message : FeatureDefect → String
  | json => "<json>"
  | notAnObject => "expected an object at the top level"
  | notADefinition found => "expected object or array, found " ++ found
  | noVariants => "complex feature has no variants"

/-- The wording of an error. -/
def FeatureError.message : FeatureError → String
  | malformed id defect => "invalid feature JSON for `" ++ id ++ "`: " ++ defect.message
  | unknownPrefix id => "feature id `" ++ id ++ "` has no known prefix"
  | ambiguous id path variants =>
    "complex feature `" ++ id ++ "` has " ++ toString variants
      ++ " variants that no tie-break rule disambiguates (resolving `" ++ path ++ "`)"
  | cycle chain => "cyclic feature dependency: " ++ " -> ".intercalate chain

end ApiTypings
