import ApiTypings.Feature.Definition
import ApiTypings.Feature.Error
/-!
# Merging the variants of a complex feature

A complex feature is reduced to one definition before it is used. Variants that differ in their
dependencies only are one feature that depends on all of them. Otherwise the candidates are narrowed
by three preferences in turn, each of which is dropped where no candidate meets it:

1. the least restrictive channel;
2. open to ordinary extensions;
3. no install location.

What the preferences cannot separate, and what differs in more than dependencies, is ambiguous.
-/

namespace ApiTypings

namespace Definition

/-! ### Variants that differ in dependencies only -/

/-- Every dependency of the variants once, in ascending order. -/
def allDependencies (variants : List Definition) : List String :=
  (NameSet.ofList (variants.flatMap dependencyIds)).toList

/-- The one definition that variants are which differ in their dependencies only. It has
dependencies if any of them has. -/
def mergeIdentical? : List Definition → Option Definition
  | [] => none
  | first :: rest =>
    let shape := first.withoutDependencies
    if rest.all (·.withoutDependencies = shape) then
      let variants := first :: rest
      some { shape with
        dependencies :=
          if variants.any (·.dependencies.isSome) then some (allDependencies variants) else none }
    else none

/-! ### Preferences -/

/-- The candidates that meet a preference, or all of them if none does. -/
def narrow (prefer : Definition → Bool) (candidates : List Definition) : List Definition :=
  if candidates.any prefer then candidates.filter prefer else candidates

/-- The least restrictive channel of the candidates. -/
def leastChannel (candidates : List Definition) : Channel :=
  (candidates.map releaseChannel).foldl Channel.leastRestrictive .trunk

/-- Narrows the candidates by preferences in turn. The first that leaves one candidate decides; if
none does, the rest is merged if it can be. -/
def pick? (candidates : List Definition) : List (Definition → Bool) → Option Definition × Nat
  | [] => (mergeIdentical? candidates, candidates.length)
  | prefer :: rest =>
    match narrow prefer candidates with
    | [only] => (some only, 1)
    | narrowed => pick? narrowed rest

/-- The preferences for one of several variants, in their order. -/
def preferences (variants : List Definition) : List (Definition → Bool) :=
  let least := leastChannel variants
  [(·.releaseChannel = least), allowsExtension, (·.location.isNone)]

/-! ### Merging -/

/-- The one definition that the variants of a complex feature are reduced to. `path` is the symbol
in question; only errors tell it. -/
def merge (id path : String) (variants : List Definition) : Except FeatureError Definition :=
  match variants with
  | [] => .error (.malformed id .noVariants)
  | [only] => .ok only
  | variants =>
    match mergeIdentical? variants with
    | some merged => .ok merged
    | none =>
      match pick? variants (preferences variants) with
      | (some picked, _) => .ok picked
      | (none, remaining) => .error (.ambiguous id path remaining)

end Definition

end ApiTypings
