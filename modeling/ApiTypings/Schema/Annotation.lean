import ApiTypings.Feature.Resolver
import ApiTypings.Schema.Visibility
/-!
# Annotating a namespace with availability

One pass from the namespace down asks the resolver for every dotted path. A member that is not
available, or hidden already, is hidden together with everything below it, and nothing below it is
asked for. Every other member gets its availability and what is new in it with respect to its
parent, and takes over the deprecation of its parent unless it has its own.

`Namespace.annotate` only marks; `Namespace.prune` drops what was marked as well.
-/

namespace ApiTypings

/-- What a property takes from the namespace or property that it is nested in. -/
structure Surroundings where
  /-- The dotted path of the parent. -/
  path : String
  availability : Availability
  deprecated : Option String

/-- What becomes of a property: hidden with everything below it, or visible with its availability.
-/
inductive Verdict
  | hidden
  | shown (path : String) (availability : Availability) (parent : Surroundings)

namespace Verdict

/-- The verdict on a property with these traits and this name. Below what is hidden (`none`) and for
what is hidden already the resolver is not asked. -/
def of (r : Resolver) (parent : Option Surroundings) (traits : Traits) (name : String) :
    Except FeatureError Verdict :=
  match parent with
  | none => .ok hidden
  | some parent =>
    if traits.nodoc then .ok hidden
    else do
      let path := member parent.path name
      match ← r.query path with
      | none => return hidden
      | some a => return shown path a parent

/-- The traits of a property under a verdict. -/
def traits (v : Verdict) (old : Traits) : Traits :=
  match v with
  | hidden => { old with nodoc := true }
  | shown _ a parent =>
    { old with
      feature := a.diff (some parent.availability)
      deprecated := old.deprecated <|> parent.deprecated
      availability := some a }

/-- What the properties nested in a property take from it. -/
def below (v : Verdict) (old : Traits) : Option Surroundings :=
  match v with
  | hidden => none
  | shown path a parent => some ⟨path, a, old.deprecated <|> parent.deprecated⟩

end Verdict

namespace ApiType

mutual

/-- Annotates every property below a type, from its surroundings; without surroundings all are
hidden. -/
def annotate (r : Resolver) (s : Option Surroundings) : ApiType → Except FeatureError ApiType
  | .primitive word => .ok (.primitive word)
  | .literal value => .ok (.literal value)
  | .number integer minimum maximum => .ok (.number integer minimum maximum)
  | .reference target arguments => do
    return .reference target (← annotateItems r s arguments)
  | .sequence element min max => do
    return .sequence (← annotate r s element) min max
  | .object properties index templates instanceType => do
    return .object (← annotateProperties r s properties) index templates instanceType
  | .intersection items => do
    return .intersection (← annotateItems r s items)
  | .choices items => do
    return .choices (← annotateItems r s items)
  | .function parameters returns completion callbackOnly => do
    return .function (← annotateProperties r s parameters) (← annotateOption r s returns)
      (← annotateOption r s completion) callbackOnly

/-- Annotates every property below one of the types. -/
def annotateItems (r : Resolver) (s : Option Surroundings) :
    List ApiType → Except FeatureError (List ApiType)
  | [] => .ok []
  | t :: ts => do
    let t ← annotate r s t
    let ts ← annotateItems r s ts
    return t :: ts

/-- Annotates a property and every property below it. -/
def annotateProperty (r : Resolver) (s : Option Surroundings) :
    Property ApiType → Except FeatureError (Property ApiType)
  | ⟨old, name, type⟩ => do
    let verdict ← Verdict.of r s old name
    let type ← annotate r (verdict.below old) type
    return ⟨verdict.traits old, name, type⟩

/-- Annotates properties in their order. -/
def annotateProperties (r : Resolver) (s : Option Surroundings) :
    List (Property ApiType) → Except FeatureError (List (Property ApiType))
  | [] => .ok []
  | p :: ps => do
    let p ← annotateProperty r s p
    let ps ← annotateProperties r s ps
    return p :: ps

/-- Annotates a property, if there is one. -/
def annotateOption (r : Resolver) (s : Option Surroundings) :
    Option (Property ApiType) → Except FeatureError (Option (Property ApiType))
  | none => .ok none
  | some p => do return some (← annotateProperty r s p)

end

end ApiType

namespace Namespace

/-- The namespace with every member annotated. A namespace that is not available is hidden with
everything in it. -/
def annotate (ns : Namespace) (r : Resolver) : Except FeatureError Namespace := do
  match ← r.query ns.name, ns.nodoc with
  | some a, false =>
    let members ← ApiType.annotateProperties r (some ⟨ns.name, a, ns.deprecated⟩) ns.members
    return { ns with members, feature := a.diff none, availability := some a }
  | _, _ =>
    let members ← ApiType.annotateProperties r none ns.members
    return { ns with members, nodoc := true }

/-- The annotated namespace without what is hidden. -/
def prune (ns : Namespace) (r : Resolver) : Except FeatureError Namespace :=
  (ns.annotate r).map visible

end Namespace

end ApiTypings
