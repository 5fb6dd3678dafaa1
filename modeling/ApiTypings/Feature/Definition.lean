import ApiTypings.Feature.Channel
import ApiTypings.Feature.Restriction
/-!
# Feature definitions

A definition says where a feature is available. Every field may be unset: a definition that leaves a
field unset takes it from the definition of its nearest dotted ancestor (`Definition.inheritFrom`),
and must therefore tell "unset" from an explicit value.
-/

namespace ApiTypings

/-- A feature definition as it is written. -/
structure Definition where
  channel : Option Channel := none
  dependencies : Option (List String) := none
  contexts : Option WrittenSet := none
  extensionTypes : Option WrittenSet := none
  platforms : Option (List String) := none
  sessionTypes : Option (List String) := none
  minManifestVersion : Option Nat := none
  maxManifestVersion : Option Nat := none
  location : Option String := none
  allowlist : Option (List String) := none
  commandLineSwitch : Option String := none
  matchPatterns : Option (List String) := none
  noParent : Option Bool := none
  defaultParent : Option Bool := none
  internal : Option Bool := none
  disallowForServiceWorkers : Option Bool := none
  deriving DecidableEq, Repr, Inhabited

namespace Definition

/-! ### Fields with their defaults -/

/-- The channel; a definition that sets none is stable. -/
def releaseChannel (d : Definition) : Channel :=
  d.channel.getD .stable

/-- The ids that the feature depends on. -/
def dependencyIds (d : Definition) : List String :=
  d.dependencies.getD []

/-- Whether the feature takes nothing from its ancestors. -/
def isNoParent (d : Definition) : Bool :=
  d.noParent.getD false

/-- Whether this variant of a complex feature is the one that its descendants inherit from. -/
def isDefaultParent (d : Definition) : Bool :=
  d.defaultParent.getD false

/-- The type of an ordinary extension. -/
def extensionType : String := "extension"

/-- Whether the feature is open to ordinary extensions. -/
def allowsExtension (d : Definition) : Bool :=
  d.extensionTypes.all (·.contains extensionType)

/-! ### Operations -/

/-- The definition without its dependencies. -/
def withoutDependencies (d : Definition) : Definition :=
  { d with dependencies := none }

/-- The definition with its unset fields taken from `parent`. Whether a feature has a parent, and
whether it is one for its descendants, is its own business. -/
def inheritFrom (d parent : Definition) : Definition where
  channel := d.channel <|> parent.channel
  dependencies := d.dependencies <|> parent.dependencies
  contexts := d.contexts <|> parent.contexts
  extensionTypes := d.extensionTypes <|> parent.extensionTypes
  platforms := d.platforms <|> parent.platforms
  sessionTypes := d.sessionTypes <|> parent.sessionTypes
  minManifestVersion := d.minManifestVersion <|> parent.minManifestVersion
  maxManifestVersion := d.maxManifestVersion <|> parent.maxManifestVersion
  location := d.location <|> parent.location
  allowlist := d.allowlist <|> parent.allowlist
  commandLineSwitch := d.commandLineSwitch <|> parent.commandLineSwitch
  matchPatterns := d.matchPatterns <|> parent.matchPatterns
  noParent := d.noParent
  defaultParent := d.defaultParent
  internal := d.internal <|> parent.internal
  disallowForServiceWorkers := d.disallowForServiceWorkers <|> parent.disallowForServiceWorkers

/-! ### Reading and writing -/

/-- The keys of a definition, in their order. -/
def keys : List String :=
  ["channel", "dependencies", "contexts", "extension_types", "platforms", "session_types",
    "min_manifest_version", "max_manifest_version", "location", "allowlist", "command_line_switch",
    "matches", "noparent", "default_parent", "internal", "disallow_for_service_workers"]

open Json Json.Reader in
/-- Reads a definition. -/
def read : Reader Definition := fun v => do
  let fields ← fields? keys v
  return {
    channel := ← field? fields "channel" Channel.read
    dependencies := ← field? fields "dependencies" strings
    contexts := ← field? fields "contexts" WrittenSet.read
    extensionTypes := ← field? fields "extension_types" WrittenSet.read
    platforms := ← field? fields "platforms" strings
    sessionTypes := ← field? fields "session_types" strings
    minManifestVersion := ← field? fields "min_manifest_version" nat32
    maxManifestVersion := ← field? fields "max_manifest_version" nat32
    location := ← field? fields "location" string
    allowlist := ← field? fields "allowlist" strings
    commandLineSwitch := ← field? fields "command_line_switch" string
    matchPatterns := ← field? fields "matches" strings
    noParent := ← field? fields "noparent" bool
    defaultParent := ← field? fields "default_parent" bool
    internal := ← field? fields "internal" bool
    disallowForServiceWorkers := ← field? fields "disallow_for_service_workers" bool }

/-- A definition as a JSON object of the fields that are set. -/
def toJson (d : Definition) : Json.Value :=
  let strings (xs : List String) : Json.Value := .array (xs.map .string)
  let nat (n : Nat) : Json.Value := .number (.integer n)
  let entry {α : Type} (key : String) (x : Option α) (value : α → Json.Value) :
      List (String × Json.Value) :=
    (x.map fun x => (key, value x)).toList
  .object <| List.flatten [
    entry "channel" d.channel fun c => .string c.name,
    entry "dependencies" d.dependencies strings,
    entry "contexts" d.contexts WrittenSet.toJson,
    entry "extension_types" d.extensionTypes WrittenSet.toJson,
    entry "platforms" d.platforms strings,
    entry "session_types" d.sessionTypes strings,
    entry "min_manifest_version" d.minManifestVersion nat,
    entry "max_manifest_version" d.maxManifestVersion nat,
    entry "location" d.location .string,
    entry "allowlist" d.allowlist strings,
    entry "command_line_switch" d.commandLineSwitch .string,
    entry "matches" d.matchPatterns strings,
    entry "noparent" d.noParent .bool,
    entry "default_parent" d.defaultParent .bool,
    entry "internal" d.internal .bool,
    entry "disallow_for_service_workers" d.disallowForServiceWorkers .bool]

end Definition

end ApiTypings
