import ApiTypings.Feature.History
import ApiTypings.Feature.Restriction
/-!
# Availability

`Availability` is the complete answer to "where can this symbol be used". `AvailabilityDiff` is the
sparse form in which it annotates a symbol: only what differs from the availability of the parent,
so that documentation does not repeat what the parent already says.
-/

namespace ApiTypings

/-- Where a symbol can be used. -/
structure Availability where
  channel : Channel := .stable
  permissions : NameSet := .empty
  manifestKeys : NameSet := .empty
  platforms : AllowSet := .all
  contexts : AllowSet := .all
  extensionTypes : AllowSet := .all
  minManifestVersion : Option Nat := none
  maxManifestVersion : Option Nat := none
  location : Option String := none
  disallowForServiceWorkers : Bool := false
  since : Option Since := none
  deprecatedSince : Option Nat := none
  /-- Set if no history was consulted. -/
  unknownVersion : Bool := false
  deriving DecidableEq, Repr, Inhabited

/-- The part of an availability that is new with respect to a parent. -/
structure AvailabilityDiff where
  channel : Option Channel := none
  permissions : Option NameSet := none
  manifestKeys : Option NameSet := none
  platforms : Option AllowSet := none
  minManifestVersion : Option Nat := none
  maxManifestVersion : Option Nat := none
  location : Option String := none
  disallowForServiceWorkers : Option Bool := none
  since : Option Since := none
  deprecatedSince : Option Nat := none
  deriving DecidableEq, Repr, Inhabited

namespace Availability

/-- A value that differs from the parent's. -/
def changed {α : Type} [DecidableEq α] (mine parent : α) : Option α :=
  if mine = parent then none else some mine

/-- The names that the parent does not have, if there are any. -/
def added (mine parent : NameSet) : Option NameSet :=
  if (mine.diff parent).isEmpty then none else some (mine.diff parent)

/-- What differs from the availability of `parent`; without a parent, what differs from the default.
Of the sets of required names only the new ones count, and a value that is only absent is not told.
-/
def diff (mine : Availability) (parent : Option Availability) : AvailabilityDiff :=
  let parent := parent.getD {}
  { channel := changed mine.channel parent.channel
    permissions := added mine.permissions parent.permissions
    manifestKeys := added mine.manifestKeys parent.manifestKeys
    platforms := changed mine.platforms parent.platforms
    minManifestVersion := (changed mine.minManifestVersion parent.minManifestVersion).join
    maxManifestVersion := (changed mine.maxManifestVersion parent.maxManifestVersion).join
    location := (changed mine.location parent.location).join
    disallowForServiceWorkers :=
      changed mine.disallowForServiceWorkers parent.disallowForServiceWorkers
    since := (changed mine.since parent.since).join
    deprecatedSince := (changed mine.deprecatedSince parent.deprecatedSince).join }

end Availability

/-- Whether there is nothing new. -/
def AvailabilityDiff.isEmpty (d : AvailabilityDiff) : Bool :=
  d = {}

end ApiTypings
