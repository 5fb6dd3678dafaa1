import ApiTypings.Feature.Availability
import ApiTypings.Feature.Dependencies
/-!
# Resolving availability

The availability of a dotted path starts at the nearest ancestor that has an `api` definition.
Everything that this feature depends on has to be defined and has to pass the gates, and the
availability is the tightest bound of every restriction met on the way.

`Resolver.query` answers `none` for a symbol that is not available. A cycle of dependencies is an
error even where a gate would have closed before.
-/

namespace ApiTypings

/-! ### Gates -/

/-- Which gates are in use. -/
structure ResolverOptions where
  /-- Refuse features that are not for regular sessions. -/
  rejectNonRegularSessions : Bool := true
  /-- Refuse internal features. -/
  rejectInternal : Bool := true
  deriving DecidableEq, Repr, Inhabited

/-- What makes a feature unavailable outright. -/
inductive Gate
  | allowlist
  | commandLineSwitch
  | sessionTypes
  | matchPatterns
  | internal
  deriving DecidableEq, Repr

/-- The session type that counts as regular. -/
def regularSession : String := "regular"

/-- The pattern that matches every page. -/
def everyPage : String := "<all_urls>"

/-- The first gate that a definition does not pass. -/
def ResolverOptions.gate? (options : ResolverOptions) (d : Definition) : Option Gate :=
  if d.allowlist.any (!·.isEmpty) then some .allowlist
  else if d.commandLineSwitch.isSome then some .commandLineSwitch
  else if options.rejectNonRegularSessions && d.sessionTypes.any (!·.contains regularSession) then
    some .sessionTypes
  else if d.matchPatterns.any (!·.contains everyPage) then some .matchPatterns
  else if options.rejectInternal && d.internal = some true then some .internal
  else none

/-! ### Gathering restrictions -/

/-- The bounds gathered so far. -/
structure Bounds where
  channel : Channel := .stable
  permissions : NameSet := .empty
  manifestKeys : NameSet := .empty
  /-- The platforms named by any definition, or `none` if none names platforms. -/
  platforms : Option NameSet := none
  contexts : AllowSet := .all
  extensionTypes : AllowSet := .all
  minManifestVersion : Option Nat := none
  maxManifestVersion : Option Nat := none
  location : Option String := none
  disallowForServiceWorkers : Bool := false
  deriving DecidableEq, Repr, Inhabited

namespace Bounds

/-- A bound tightened by another, where an unset one tightens nothing. -/
def tighten {α : Type} (tighter : α → α → α) : Option α → Option α → Option α
  | some a, some b => some (tighter a b)
  | some a, none => some a
  | none, b => b

/-- The bounds after one more definition. Permissions and manifest keys are required by being
depended on; platforms add up; of the locations the first that says something counts. -/
def absorb (b : Bounds) (id : String) (d : Definition) : Except FeatureError Bounds := do
  let (kind, name) ← FeatureKind.splitId id
  return {
    channel := Channel.mostRestrictive b.channel d.releaseChannel
    permissions := if kind = .permission then b.permissions.insert name else b.permissions
    manifestKeys := if kind = .manifest then b.manifestKeys.insert name else b.manifestKeys
    platforms := tighten NameSet.union b.platforms (d.platforms.map NameSet.ofList)
    contexts := b.contexts.inter (d.contexts.elim .all AllowSet.ofWritten)
    extensionTypes := b.extensionTypes.inter (d.extensionTypes.elim .all AllowSet.ofWritten)
    minManifestVersion := tighten max b.minManifestVersion d.minManifestVersion
    maxManifestVersion := tighten min b.maxManifestVersion d.maxManifestVersion
    location := b.location <|> d.location.filter (· ≠ "")
    disallowForServiceWorkers :=
      b.disallowForServiceWorkers || d.disallowForServiceWorkers = some true }

/-- Whether the manifest versions leave none. -/
def versionsConflict (b : Bounds) : Bool :=
  match b.minManifestVersion, b.maxManifestVersion with
  | some lo, some hi => hi < lo
  | _, _ => false

/-- The availability within the bounds. Where no definition names platforms, all are left. -/
def toAvailability (b : Bounds) : Availability where
  channel := b.channel
  permissions := b.permissions
  manifestKeys := b.manifestKeys
  platforms := b.platforms.elim .all .only
  contexts := b.contexts
  extensionTypes := b.extensionTypes
  minManifestVersion := b.minManifestVersion
  maxManifestVersion := b.maxManifestVersion
  location := b.location
  disallowForServiceWorkers := b.disallowForServiceWorkers

/-- The availability within the bounds, or `none` if they leave nothing. -/
def availability? (b : Bounds) : Option Availability :=
  if b.contexts.isEmpty || b.extensionTypes.isEmpty || b.versionsConflict then none
  else some b.toAvailability

end Bounds

/-! ### The resolver -/

/-- What availability is resolved from. -/
structure Resolver where
  table : FeatureTable := {}
  options : ResolverOptions := {}
  history : Option History := none
  deriving Repr, Inhabited

namespace Resolver

/-- The id of the nearest ancestor of a path, itself included, that has an `api` definition. -/
def root? (r : Resolver) (path : String) : Option String :=
  ((ancestors path).find? fun p => r.table.contains (FeatureKind.api.id p)).map FeatureKind.api.id

/-- The bounds of the definitions of a closure in order, or `none` from the first on that is missing
or stopped by a gate. -/
def gather (r : Resolver) (c : Closure) : List String → Bounds → Except FeatureError (Option Bounds)
  | [], b => .ok (some b)
  | id :: ids, b =>
    match c.definition? id with
    | none => .ok none
    | some d =>
      if (r.options.gate? d).isSome then .ok none
      else do gather r c ids (← b.absorb id d)

/-- The availability with what the history knows about a path. A path without any recorded ancestor
is pending. -/
def dated (r : Resolver) (path : String) (a : Availability) : Availability :=
  match r.history with
  | none => { a with unknownVersion := true }
  | some h =>
    match h.nearest? path with
    | some e => { a with since := some e.since, deprecatedSince := e.deprecatedAt }
    | none => { a with since := some .pending }

/-- The availability of a path, or `none` if it is not available. -/
def query (r : Resolver) (path : String) : Except FeatureError (Option Availability) :=
  match r.root? path with
  | none => .ok none
  | some root => do
    let c ← Closure.collect r.table path root
    c.checkAcyclic root
    let bounds ← r.gather c c.order {}
    return (bounds.bind Bounds.availability?).map (r.dated path)

/-- Whether a path is available. -/
def isAllowed (r : Resolver) (path : String) : Except FeatureError Bool :=
  (r.query path).map Option.isSome

end Resolver

end ApiTypings
