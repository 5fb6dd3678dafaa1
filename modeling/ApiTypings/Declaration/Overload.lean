import ApiTypings.Declaration.Error
import ApiTypings.Schema.Model
/-!
# Overloads

A schema may have a required parameter after an optional one: the optional one can be left out and
the required one moves up. A declaration file cannot say so. Such *left-optional* parameters are
resolved by one overload for every choice of parameters to leave out, in which the others are
required.

An asynchronous function has two families of overloads: one that returns a promise, and one that
takes the completion callback as its last parameter.

**Genericity.** Nothing here looks into a type. The functions work for parameter lists over any `τ`,
given how to write `void` and a promise in `τ`.
-/

namespace ApiTypings

/-! ### Leaving parameters out -/

namespace Property

variable {τ : Type}

/-- The property as one that may not be left out. -/
def required (p : Property τ) : Property τ :=
  { p with optional := false }

/-- Whether a parameter is optional although one of those after it is required. -/
def isLeftOptional (p : Property τ) (rest : List (Property τ)) : Bool :=
  p.optional && rest.any (!·.optional)

/-- The positions of the left-optional parameters, counted from `start`. -/
def leftOptionalFrom (start : Nat) : List (Property τ) → List Nat
  | [] => []
  | p :: rest =>
    if p.isLeftOptional rest then start :: leftOptionalFrom (start + 1) rest
    else leftOptionalFrom (start + 1) rest

/-- The positions of the left-optional parameters. -/
def leftOptional (ps : List (Property τ)) : List Nat :=
  leftOptionalFrom 0 ps

/-- The parameter lists that result from leaving out some of the left-optional parameters. The whole
list comes first, and whether the first of them is left out changes fastest. -/
def omissions : List (Property τ) → List (List (Property τ))
  | [] => [[]]
  | p :: rest =>
    if p.isLeftOptional rest then (omissions rest).flatMap fun kept => [p.required :: kept, kept]
    else (omissions rest).map (p :: ·)

/-- The parameter lists of `omissions`, if they are not too many. -/
def boundedOmissions (path : String) (ps : List (Property τ)) :
    Except DeclarationError (List (List (Property τ))) :=
  if maxLeftOptional < (leftOptional ps).length then
    .error (.tooManyOptional path (leftOptional ps).length)
  else .ok (omissions ps)

end Property

/-! ### Signatures -/

/-- The family that an overload belongs to. -/
inductive SignatureKind
  | sync
  | promise
  | callback
  deriving DecidableEq, Repr, Inhabited

/-- One overload of a function. -/
structure Signature (τ : Type) where
  kind : SignatureKind
  parameters : List (Property τ)
  returns : Property τ
  deriving Repr

/-- The asynchronous side of a function. -/
structure Completion (τ : Type) where
  callback : Property τ
  /-- The visible parameters of the callback, if it is a function. -/
  results : Option (List (Property τ))
  /-- The function cannot be called as a promise. -/
  callbackOnly : Bool

/-- What the overloads of a function are made of. -/
structure Callable (τ : Type) where
  /-- The visible parameters. -/
  parameters : List (Property τ)
  returns : Option (Property τ)
  completion : Option (Completion τ)

namespace Callable

variable {τ : Type}

/-- The result of the promise family: a promise of the only parameter of the callback, or of
nothing. -/
def promiseResult (void : τ) (promise : τ → τ) (path : String) :
    List (Property τ) → Except DeclarationError (Property τ)
  | [] => .ok (Property.result (promise void))
  | [only] => .ok { Property.result (promise only.type) with description := only.description }
  | many => .error (.asyncArity path many.length)

/-- The overloads of a family. -/
def family (kind : SignatureKind) (path : String) (parameters : List (Property τ))
    (returns : Property τ) : Except DeclarationError (List (Signature τ)) :=
  (Property.boundedOmissions path parameters).map fun lists =>
    lists.map fun ps => ⟨kind, ps, returns⟩

/-- The overloads of both families. -/
def signatures (void : τ) (promise : τ → τ) (path : String) (c : Callable τ) :
    Except DeclarationError (List (Signature τ)) :=
  match c.completion with
  | none => family .sync path c.parameters (c.returns.getD (Property.result void))
  | some completion =>
    match completion.results with
    | none => .error (.callbackNotFunction path)
    | some results => do
      let promises ←
        if completion.callbackOnly then pure []
        else family .promise path c.parameters (← promiseResult void promise path results)
      let callbacks ← family .callback path (c.parameters ++ [completion.callback.required])
        (Property.result void)
      return promises ++ callbacks

/-- The overloads of a function, promises before callbacks. Every result is named `return`. -/
def expand (void : τ) (promise : τ → τ) (path : String) (c : Callable τ) :
    Except DeclarationError (List (Signature τ)) := do
  let all ← c.signatures void promise path
  if all.isEmpty then throw (.noSignatures path)
  match all.find? (·.returns.name ≠ Property.returnName) with
  | some s => throw (.returnName path s.returns.name)
  | none => return all

end Callable

/-! ### Functions of the model -/

namespace ApiType

/-- The name of the type of promises. -/
def promiseName : String := "Promise"

/-- The visible parameters of a function type. -/
def visibleParameters? : ApiType → Option (List (Property ApiType))
  | .function parameters _ _ _ => some (Property.visible parameters)
  | _ => none

/-- What the overloads of a function type are made of. -/
def callable? : ApiType → Option (Callable ApiType)
  | .function parameters returns completion callbackOnly => some {
      parameters := Property.visible parameters
      returns := returns
      completion := completion.map fun callback =>
        ⟨callback, callback.type.visibleParameters?, callbackOnly⟩ }
  | _ => none

/-- The overloads of a function type; none for another type. -/
def expand (t : ApiType) (path : String) : Except DeclarationError (List (Signature ApiType)) :=
  match t.callable? with
  | some c => c.expand void (fun result => host promiseName [result]) path
  | none => .ok []

end ApiType

end ApiTypings
