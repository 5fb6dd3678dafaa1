import ApiTypings.Feature.Availability
/-!
# The model of an interface

A `Namespace` of an interface has members, each a `Property` with a type. Types nest: objects have
properties, functions have parameters, and both kinds of property are the same structure. A
`Property` is generic in what it takes for a type, so that the same parameter list can carry types
of the model or types of the declaration language.

**Order.** Lists of properties keep the order of the schema. Where they are members of a namespace
or of an object, their names are distinct.
-/

namespace ApiTypings

/-! ### Properties -/

/-- What is known of a property beside its name and type. -/
structure Traits where
  optional : Bool := false
  /-- The property declares a type, not a value. -/
  isType : Bool := false
  /-- A value of a namespace that is fixed by the schema. -/
  isConst : Bool := false
  isEvent : Bool := false
  /-- The property is hidden from the declarations. -/
  nodoc : Bool := false
  deprecated : Option String := none
  description : Option String := none
  /-- What is new in its availability with respect to the parent. -/
  feature : AvailabilityDiff := {}
  availability : Option Availability := none
  deriving DecidableEq, Repr, Inhabited

/-- A named member of a namespace or an object, or a parameter. -/
structure Property (τ : Type) extends Traits where
  name : String
  type : τ
  deriving DecidableEq, Repr

namespace Property

/-- A property without traits. -/
def plain {τ : Type} (name : String) (type : τ) : Property τ where
  name := name
  type := type

/-- The name of the property that stands for the result of a function. -/
def returnName : String := "return"

/-- The result of a function. -/
def result {τ : Type} (type : τ) : Property τ :=
  plain returnName type

/-- The properties that are not hidden. -/
def visible {τ : Type} (ps : List (Property τ)) : List (Property τ) :=
  ps.filter (!·.nodoc)

end Property

/-! ### Types -/

/-- A type that is one word. -/
inductive Primitive
  | void
  | any
  | unknown
  | boolean
  | string
  | undefined
  | null
  deriving DecidableEq, Repr, Inhabited

/-- The word of a primitive type. -/
def Primitive.keyword : Primitive → String
  | void => "void"
  | any => "any"
  | unknown => "unknown"
  | boolean => "boolean"
  | string => "string"
  | undefined => "undefined"
  | null => "null"

/-- A type with one value. -/
inductive Literal
  | string (value : String)
  | number (value : Json.Number)
  | boolean (value : Bool)
  deriving DecidableEq, Repr, Inhabited

/-- A reference without its arguments. -/
structure Reference where
  name : String
  /-- The type is defined outside the schema. -/
  external : Bool := false
  /-- The name is a template parameter of an enclosing type. -/
  generic : Bool := false
  deriving DecidableEq, Repr, Inhabited

/-- A type of the model. -/
inductive ApiType
  | primitive (word : Primitive)
  | literal (value : Literal)
  | number (integer : Bool) (minimum maximum : Option Double)
  | reference (target : Reference) (arguments : List ApiType)
  /-- Arrays of at least `min` and at most `max` elements. -/
  | sequence (element : ApiType) (min : Nat) (max : Option Nat)
  /-- Objects with these properties, and with any others of the type `index` if there is one. An
  object with an instance type is declared as a class. -/
  | object (properties : List (Property ApiType)) (index : Option ApiType)
      (templates instanceType : Option String)
  /-- What every item admits. -/
  | intersection (items : List ApiType)
  /-- What one of the items admits. -/
  | choices (items : List ApiType)
  /-- Functions. An asynchronous function has a completion callback and can be called with it or,
  unless it is `callbackOnly`, as a promise. -/
  | function (parameters : List (Property ApiType)) (returns completion : Option (Property ApiType))
      (callbackOnly : Bool)
  deriving Repr

namespace ApiType

instance : Inhabited ApiType := ⟨.primitive .void⟩

instance : Inhabited (Property ApiType) := ⟨.plain "" default⟩

/-- The type of what is not there. -/
def void : ApiType := .primitive .void

/-- The type of everything. -/
def any : ApiType := .primitive .any

/-- A reference without arguments. -/
def named (name : String) : ApiType := .reference ⟨name, false, false⟩ []

/-- A reference to a type that is defined outside the schema. -/
def host (name : String) (arguments : List ApiType) : ApiType :=
  .reference ⟨name, true, false⟩ arguments

/-- A reference to a template parameter. -/
def templateParameter (name : String) : ApiType := .reference ⟨name, false, true⟩ []

/-- The generic type of events. -/
def eventName : String := "events.Event"

/-- Whether the type is `any`. -/
def isAny : ApiType → Bool
  | .primitive .any => true
  | _ => false

/-- Whether the type is `void`. -/
def isVoid : ApiType → Bool
  | .primitive .void => true
  | _ => false

/-- Whether the type is a function type. -/
def isFunction : ApiType → Bool
  | .function .. => true
  | _ => false

end ApiType

/-! ### Namespaces -/

/-- A namespace of an interface. -/
structure Namespace where
  name : String
  members : List (Property ApiType) := []
  description : Option String := none
  deprecated : Option String := none
  nodoc : Bool := false
  feature : AvailabilityDiff := {}
  availability : Option Availability := none
  deriving Repr, Inhabited

end ApiTypings
