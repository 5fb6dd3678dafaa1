import ApiTypings.Schema.Model
/-!
# Walking through types and dropping what is hidden

The properties *directly* nested in a type are those that are met without passing another property:
arguments of references, elements of sequences and items of compound types are transparent, and the
result and the completion callback of a function count as its properties. The type of further
members of an object (`index`) is not entered: it belongs to no property.

* `ApiType.traverseProperties` applies an effectful change to every directly nested property.
* `ApiType.visible` drops every hidden property, at any depth.
-/

namespace ApiTypings

namespace ApiType

/-! ### Directly nested properties -/

mutual

/-- Changes every directly nested property, in the order of the schema. -/
def traverseProperties {m : Type → Type} [Monad m]
    (f : Property ApiType → m (Property ApiType)) : ApiType → m ApiType
  | .primitive word => pure (.primitive word)
  | .literal value => pure (.literal value)
  | .number integer minimum maximum => pure (.number integer minimum maximum)
  | .reference target arguments => do
    return .reference target (← traverseItems f arguments)
  | .sequence element min max => do
    return .sequence (← traverseProperties f element) min max
  | .object properties index templates instanceType => do
    return .object (← properties.mapM f) index templates instanceType
  | .intersection items => do
    return .intersection (← traverseItems f items)
  | .choices items => do
    return .choices (← traverseItems f items)
  | .function parameters returns completion callbackOnly => do
    return .function (← parameters.mapM f) (← returns.mapM f) (← completion.mapM f) callbackOnly

/-- Changes every property directly nested in one of the types. -/
def traverseItems {m : Type → Type} [Monad m]
    (f : Property ApiType → m (Property ApiType)) : List ApiType → m (List ApiType)
  | [] => pure []
  | t :: ts => do
    let t ← traverseProperties f t
    let ts ← traverseItems f ts
    return t :: ts

end

/-- Applies a function to every directly nested property. -/
def mapProperties (f : Property ApiType → Property ApiType) (t : ApiType) : ApiType :=
  Id.run (t.traverseProperties fun p => pure (f p))

/-! ### Dropping what is hidden -/

mutual

/-- The type without its hidden properties. A hidden completion callback goes, a hidden result
stays: its type is still the type of the result. -/
def visible : ApiType → ApiType
  | .primitive word => .primitive word
  | .literal value => .literal value
  | .number integer minimum maximum => .number integer minimum maximum
  | .reference target arguments => .reference target (visibleItems arguments)
  | .sequence element min max => .sequence element.visible min max
  | .object properties index templates instanceType =>
    .object (visibleProperties properties) index templates instanceType
  | .intersection items => .intersection (visibleItems items)
  | .choices items => .choices (visibleItems items)
  | .function parameters returns completion callbackOnly =>
    .function (visibleProperties parameters) (visibleResult returns) (visibleCallback completion)
      callbackOnly

/-- Each of the types without its hidden properties. -/
def visibleItems : List ApiType → List ApiType
  | [] => []
  | t :: ts => t.visible :: visibleItems ts

/-- The property with what is visible of its type. -/
def visibleInside : Property ApiType → Property ApiType
  | ⟨traits, name, type⟩ => ⟨traits, name, type.visible⟩

/-- The properties that are not hidden, each with what is visible of its type. -/
def visibleProperties : List (Property ApiType) → List (Property ApiType)
  | [] => []
  | p :: ps => if p.nodoc then visibleProperties ps else visibleInside p :: visibleProperties ps

/-- What is visible of a result. -/
def visibleResult : Option (Property ApiType) → Option (Property ApiType)
  | none => none
  | some p => some (visibleInside p)

/-- What is visible of a completion callback. -/
def visibleCallback : Option (Property ApiType) → Option (Property ApiType)
  | none => none
  | some p => if p.nodoc then none else some (visibleInside p)

end

end ApiType

namespace Namespace

/-- Whether the namespace has anything to declare. -/
def hasVisibleMembers (ns : Namespace) : Bool :=
  !ns.nodoc && ns.members.any (!·.nodoc)

/-- The namespace without its hidden members; a hidden namespace has no members at all. -/
def visible (ns : Namespace) : Namespace :=
  if ns.nodoc then { ns with members := [] }
  else { ns with members := ApiType.visibleProperties ns.members }

end Namespace

end ApiTypings
