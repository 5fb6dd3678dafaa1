/-!
# What can go wrong in a schema

Every error tells the dotted path of the node that it is about. `SchemaError.message` is the only
place that words errors.
-/

namespace ApiTypings

/-- How deep the nodes of a schema may nest. -/
def maxNesting : Nat := 64

/-- The kinds of node that need a name. -/
inductive NamedKind
  | namespaceNode
  | typeNode
  | functionNode
  | eventNode
  | parameterNode
  deriving DecidableEq, Repr

/-- The lists that a declarative event needs. -/
inductive RuleList
  | conditions
  | actions
  deriving DecidableEq, Repr

/-- What is wrong with the shape of a node. -/
inductive ShapeDefect
  | nestingTooDeep
  | arrayWithoutItems
  /-- The schema of the value of a setting is ill-typed. -/
  | settingValue
  deriving DecidableEq, Repr

/-- A failure of reading a schema. -/
inductive SchemaError
  /-- The text is no JSON, or a value is not of the type that its place asks for. -/
  | json
  | missingType (path : String)
  | unknownType (path kind : String)
  | missingName (path : String) (what : NamedKind)
  | conflictingReturns (path : String)
  | missingDeclarativeList (path : String) (list : RuleList)
  | duplicateMember (path name : String)
  | unexpectedShape (path : String) (defect : ShapeDefect)
  deriving DecidableEq, Repr

/-- The word for a kind of node. -/
def NamedKind.word : NamedKind → String
  | namespaceNode => "namespace"
  | typeNode => "type"
  | functionNode => "function"
  | eventNode => "event"
  | parameterNode => "parameter"

/-- The key of a list. -/
def RuleList.key : RuleList → String
  | conditions => "conditions"
  | actions => "actions"

/-- The wording of a defect. What is wrong inside a JSON value is not told. -/
def ShapeDefect.message : ShapeDefect → String
  | nestingTooDeep => "nesting exceeds " ++ toString maxNesting ++ " levels"
  | arrayWithoutItems => "array has no `items`"
  | settingValue => "invalid setting value schema: <json>"

/-- The wording of an error. -/
def SchemaError.message : SchemaError → String
  | json => "invalid schema JSON: <json>"
  | missingType path => path ++ ": node has no type discriminator"
  | unknownType path kind => path ++ ": unknown type `" ++ kind ++ "`"
  | missingName path what => path ++ ": " ++ what.word ++ " is missing its name"
  | conflictingReturns path => path ++ ": function declares both `returns` and `returns_async`"
  | missingDeclarativeList path list =>
    path ++ ": declarative event is missing its `" ++ list.key ++ "` list"
  | duplicateMember path name => path ++ ": duplicate member `" ++ name ++ "`"
  | unexpectedShape path defect => path ++ ": " ++ defect.message

end ApiTypings
