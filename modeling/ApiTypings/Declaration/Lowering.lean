import ApiTypings.Declaration.Overload
import ApiTypings.Declaration.Override
import ApiTypings.Declaration.TypeExpr
import ApiTypings.Text.Naming
/-!
# From the model to type expressions

`ApiType.lower` gives the type expression of a type that is found at a dotted path, with what the
schema cannot say added (`Replacement`). Template parameters have to be in scope where they are
used.

**Overloads without recursion on overloads.** Expanding a function moves and repeats its parameters,
but never changes a type but to wrap it in a promise. So a function is expanded over the lowered
types, of which there is one for every path at which a type can appear. They are `Deferred`: a
lowered type is computed when the first signature asks for it, and then kept. What no overload needs
is never computed, and the first error in the order of the overloads is the one that is reported.
-/

namespace ApiTypings

/-- A type expression, or the reason why there is none. -/
abbrev Lowered := Except DeclarationError TypeExpr

/-- A type expression that is computed when it is asked for. -/
abbrev Deferred := Thunk Lowered

/-! ### Parameters and signatures -/

/-- The parameter of a declaration for a parameter of the model. -/
def Property.toParameter (p : Property Deferred) : Except DeclarationError (Parameter TypeExpr) := do
  return ⟨parameterName p.name, p.optional, ← p.type.get⟩

/-- The parameters and the result of an overload. -/
def Signature.lowered (s : Signature Deferred) :
    Except DeclarationError (List (Parameter TypeExpr) × TypeExpr) := do
  let parameters ← s.parameters.mapM Property.toParameter
  return (parameters, ← s.returns.type.get)

/-- The promise of a deferred type. -/
def Deferred.promise (result : Deferred) : Deferred :=
  .mk fun _ => result.get.map TypeExpr.promise

/-- The overloads of a function whose types are lowered. -/
def Callable.loweredSignatures (c : Callable Deferred) (path : String) :
    Except DeclarationError (List (Signature Deferred)) :=
  c.expand (.pure (.ok TypeExpr.void)) Deferred.promise path

/-- The parameters of an arrow type. A left-optional parameter cannot be left out of an arrow type,
so it is required and may be `undefined`. -/
def arrowParameters : List (Property Deferred) → Except DeclarationError (List (Parameter TypeExpr))
  | [] => .ok []
  | p :: rest => do
    let parameter ← p.toParameter
    let parameter := if p.isLeftOptional rest
      then { parameter with optional := false, type := parameter.type.orUndefined } else parameter
    let parameters ← arrowParameters rest
    return parameter :: parameters

/-- The type of a function. An asynchronous one is an object that can be called in several ways. -/
def Callable.functionType (c : Callable Deferred) (path : String) : Lowered :=
  match c.completion with
  | some _ => do
    let members ← (← c.loweredSignatures path).mapM fun s => do
      let (parameters, returns) ← s.lowered
      return ObjectMember.call parameters returns
    return .object members
  | none => do
    let parameters ← arrowParameters c.parameters
    let returns ← match c.returns with
      | some result => result.type.get
      | none => pure .void
    return .arrow parameters returns

/-! ### Comments -/

/-- The comment of a property at a path. -/
def Traits.doc (p : Traits) (t : ApiType) (path : String) : Doc where
  description := p.description
  deprecated := p.deprecated
  tags := p.feature.tags ++ extraTags t path

/-- The comment of an overload of a function that has the comment `d` itself. -/
def Signature.doc {τ : Type} (s : Signature τ) (d : Doc) : Doc :=
  { d with
    params := s.parameters.filterMap fun p => p.description.map fun text => (parameterName p.name, text)
    returns := s.returns.description }

/-! ### References -/

/-- A template parameter, which has to be in scope. -/
def lowerTemplate (scope : List String) (path name : String) : Lowered :=
  if scope.contains name then .ok (.named ⟨name, false, true⟩ [])
  else .error (.templateReference path name)

/-- The type `any` at a path, where a template parameter may be meant. -/
def lowerAny (scope : List String) (path : String) : Lowered :=
  match Replacement.find? path .any with
  | some (.parameter name) => lowerTemplate scope path name
  | _ => .ok (.primitive .any)

/-- The final target of a reference. A template parameter has to be in scope. -/
def finalTarget (scope : List String) (path : String) (target : Reference) :
    Option Replacement → Except DeclarationError Reference
  | some (.rename name) => check { target with name := name }
  | _ => check target
where
  /-- The target, unless it is a template parameter out of scope. -/
  check (target : Reference) : Except DeclarationError Reference :=
    if target.generic && !scope.contains target.name then
      .error (.templateReference path target.name)
    else .ok target

/-- A type that no replacement but a template parameter can take the place of. It is lowered only if
none does. -/
@[macro_inline]
def lowerUnlessParameter (scope : List String) (path : String) (t : ApiType) (otherwise : Lowered) :
    Lowered :=
  match Replacement.find? path t with
  | some (.parameter name) => lowerTemplate scope path name
  | _ => otherwise

/-- Whether a function is declared as a method: it has to be there, and it is no event. -/
def Traits.mayBeMethod (t : Traits) : Bool :=
  !t.optional && !t.isEvent

/-- The members of an object for one of its methods: one for every overload. -/
def lowerMethod (c : Callable Deferred) (name path : String) (doc : Doc) :
    Except DeclarationError (List (ObjectMember TypeExpr)) := do
  (← c.loweredSignatures path).mapM fun s => do
    let (parameters, returns) ← s.lowered
    return .method (s.doc doc) (memberKey name) parameters returns

/-! ### Types -/

namespace ApiType

mutual

/-- The type expression of a type at a path, with these template parameters in scope. -/
def lower (scope : List String) (path : String) : ApiType → Lowered
  | .primitive word => lowerUnlessParameter scope path (.primitive word) (.ok (.primitive word))
  | .literal value => lowerUnlessParameter scope path (.literal value) (.ok (.literal value))
  | .number integer minimum maximum =>
    lowerUnlessParameter scope path (.number integer minimum maximum) (.ok (.keyword "number"))
  | .reference target arguments =>
    match Replacement.find? path (.reference target arguments) with
    | some (.parameter name) => lowerTemplate scope path name
    | some .applyToAny => do return .named target [← lowerAny scope path]
    | replacement => do
      let target ← finalTarget scope path target replacement
      return .named target (← lowerItems scope path arguments)
  | .sequence element min max =>
    lowerUnlessParameter scope path (.sequence element min max)
      ((lower scope path element).map fun e => e.boundedArray min max)
  | .object properties index templates instanceType =>
    lowerUnlessParameter scope path (.object properties index templates instanceType) <| do
      let members ← lowerMembers scope path properties
      return .object (members ++ (← lowerIndex scope path index))
  | .intersection items =>
    lowerUnlessParameter scope path (.intersection items)
      ((lowerItems scope path items).map .allOf)
  | .choices items =>
    lowerUnlessParameter scope path (.choices items) ((lowerItems scope path items).map .oneOf)
  | .function parameters returns completion callbackOnly =>
    lowerUnlessParameter scope path (.function parameters returns completion callbackOnly)
      (Callable.functionType
        ⟨lowerVisible scope path parameters, lowerResult scope path returns,
          lowerCompletion scope path callbackOnly completion⟩ path)

/-- The type expressions of types at one path. -/
def lowerItems (scope : List String) (path : String) :
    List ApiType → Except DeclarationError (List TypeExpr)
  | [] => .ok []
  | t :: ts => do
    let t ← lower scope path t
    let ts ← lowerItems scope path ts
    return t :: ts

/-- The visible ones of the parameters of a function at a path. -/
def lowerVisible (scope : List String) (path : String) :
    List (Property ApiType) → List (Property Deferred)
  | [] => []
  | ⟨traits, name, type⟩ :: ps =>
    if traits.nodoc then lowerVisible scope path ps
    else ⟨traits, name, .mk fun _ => lower scope (member path name) type⟩ :: lowerVisible scope path ps

/-- The visible ones of the parameters of a completion callback, each at the path of the promise
that it may become the result of. -/
def lowerPromised (scope : List String) (path : String) :
    List (Property ApiType) → List (Property Deferred)
  | [] => []
  | ⟨traits, name, type⟩ :: ps =>
    if traits.nodoc then lowerPromised scope path ps
    else ⟨traits, name, .mk fun _ => lower scope path type⟩ :: lowerPromised scope path ps

/-- The result of a function at a path. -/
def lowerResult (scope : List String) (path : String) :
    Option (Property ApiType) → Option (Property Deferred)
  | none => none
  | some ⟨traits, name, type⟩ => some ⟨traits, name, .mk fun _ => lower scope (member path name) type⟩

/-- The parameters of a callback, if it is a function, at the path of the promise. -/
def lowerResults (scope : List String) (path : String) : ApiType → Option (List (Property Deferred))
  | .function parameters _ _ _ =>
    some (lowerPromised scope (member path Property.returnName) parameters)
  | _ => none

/-- The asynchronous side of a function at a path. -/
def lowerCompletion (scope : List String) (path : String) (callbackOnly : Bool) :
    Option (Property ApiType) → Option (Completion Deferred)
  | none => none
  | some ⟨traits, name, type⟩ =>
    some ⟨⟨traits, name, .mk fun _ => lower scope (member path name) type⟩, lowerResults scope path type,
      callbackOnly⟩

/-- What the overloads of a function type at a path are made of. -/
def lowerCallable? (scope : List String) (path : String) : ApiType → Option (Callable Deferred)
  | .function parameters returns completion callbackOnly =>
    some ⟨lowerVisible scope path parameters, lowerResult scope path returns,
      lowerCompletion scope path callbackOnly completion⟩
  | _ => none

/-- The members of an object at a path. -/
def lowerMembers (scope : List String) (path : String) :
    List (Property ApiType) → Except DeclarationError (List (ObjectMember TypeExpr))
  | [] => .ok []
  | ⟨traits, name, type⟩ :: ps =>
    if traits.nodoc then lowerMembers scope path ps
    else do
      let child := member path name
      let doc := traits.doc type child
      let method? := if traits.mayBeMethod then lowerCallable? scope child type else none
      let here ← match method? with
        | some c => lowerMethod c name child doc
        | none =>
          (lower scope child type).map fun t =>
            [ObjectMember.property doc (memberKey name) traits.optional t]
      let rest ← lowerMembers scope path ps
      return here ++ rest

/-- The member for further members of an object at a path. -/
def lowerIndex (scope : List String) (path : String) :
    Option ApiType → Except DeclarationError (List (ObjectMember TypeExpr))
  | none => .ok []
  | some t => do return [.index (← lower scope path t)]

end

/-- The members of an object type at a path. -/
def lowerObject (scope : List String) (path : String) (properties : List (Property ApiType))
    (index : Option ApiType) : Except DeclarationError (List (ObjectMember TypeExpr)) := do
  let members ← lowerMembers scope path properties
  return members ++ (← lowerIndex scope path index)

end ApiType

end ApiTypings
