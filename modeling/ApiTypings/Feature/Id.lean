import ApiTypings.Text.Dotted
import ApiTypings.Feature.Error
/-!
# Feature ids

Features come in four kinds. The id of a feature is the name of its kind, a colon and its own name:
`api:alarms`, `permission:tabs`. Dependencies name features by their ids.
-/

namespace ApiTypings

/-- The kind of a feature. -/
inductive FeatureKind
  | api
  | permission
  | manifest
  | behavior
  deriving DecidableEq, Repr, Inhabited

namespace FeatureKind

/-- All kinds. -/
def all : List FeatureKind := [api, permission, manifest, behavior]

/-- The name of a kind, as it stands in ids. -/
def name : FeatureKind → String
  | api => "api"
  | permission => "permission"
  | manifest => "manifest"
  | behavior => "behavior"

/-- The name of the file that holds the features of a kind. -/
def fileName (kind : FeatureKind) : String :=
  "_" ++ kind.name ++ "_features.json"

/-- The kind of a name. -/
def ofName? (name : String) : Option FeatureKind :=
  all.find? (·.name = name)

/-- The id of the feature of this kind with this name. -/
def id (kind : FeatureKind) (name : String) : String :=
  kind.name ++ ":" ++ name

/-- The kind and the name that an id consists of. Only the first colon separates. -/
def splitId (id : String) : Except FeatureError (FeatureKind × String) :=
  match splitFirst? ':' id with
  | none => .error (.unknownPrefix id)
  | some (kind, name) =>
    match ofName? kind with
    | none => .error (.unknownPrefix id)
    | some kind => .ok (kind, name)

end FeatureKind

end ApiTypings
