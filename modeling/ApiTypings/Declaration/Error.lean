/-!
# What cannot be declared

The ways in which a part of the model has no declaration. Every error tells the dotted path that it
is about, and `DeclarationError.message` is the only place that words errors.
-/

namespace ApiTypings

/-- How many parameters of a function may be left out although a required one follows. Every one of
them doubles the number of overloads. -/
def maxLeftOptional : Nat := 6

/-- A failure of declaring a part of the model. -/
inductive DeclarationError
  | returnName (path found : String)
  /-- A template parameter is used where it is not bound. -/
  | templateReference (path name : String)
  | noSignatures (path : String)
  | callbackNotFunction (path : String)
  | asyncArity (path : String) (count : Nat)
  | tooManyOptional (path : String) (count : Nat)
  deriving DecidableEq, Repr

/-- The wording of an error. -/
def DeclarationError.message : DeclarationError → String
  | returnName path found =>
    path ++ ": return property must be named `return`, found `" ++ found ++ "`"
  | templateReference path name =>
    path ++ ": signature references template parameter `" ++ name ++ "` outside a templated type"
  | noSignatures path => path ++ ": function expanded to no signatures"
  | callbackNotFunction path => path ++ ": async callback is not a function type"
  | asyncArity path count =>
    path ++ ": async callback has " ++ toString count
      ++ " parameters, at most one can become a promise"
  | tooManyOptional path count =>
    path ++ ": " ++ toString count ++ " left-optional parameters exceed the limit of "
      ++ toString maxLeftOptional

end ApiTypings
