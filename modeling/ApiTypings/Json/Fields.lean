import ApiTypings.Json.Value
/-!
# Typed fields of JSON values

Interface files and feature files hold records with fields of fixed types. A record may be written
as an object, whose unknown keys are ignored, or as an array of its fields in their order, from
which fields at the end may be missing. A field that may be absent takes `null` for absence.

Every reader answers `none` for a value that is not of the type it reads.
-/

namespace ApiTypings.Json

/-- A reader of values. -/
abbrev Reader (α : Type) := Value → Option α

namespace Reader

/-! ### Single values -/

/-- Reads a string. -/
def string : Reader String
  | .string s => some s
  | _ => none

/-- Reads a truth value. -/
def bool : Reader Bool
  | .bool b => some b
  | _ => none

/-- Reads a number. -/
def number : Reader Number
  | .number n => some n
  | _ => none

/-- Reads a natural number below a bound. -/
def natBelow (bound : Nat) : Reader Nat := fun v =>
  (number v).bind (Number.natBelow? bound)

/-- Reads a natural number of 32 bits. -/
def nat32 : Reader Nat := natBelow (Nat.pow 2 32)

/-- Reads a natural number of 64 bits. -/
def nat64 : Reader Nat := natBelow (Nat.pow 2 64)

/-- Reads any number as a double. -/
def double : Reader Double := fun v =>
  (number v).map Number.toDouble

/-- Reads a value that may be absent. -/
def nullable {α : Type} (read : Reader α) : Reader (Option α)
  | .null => some none
  | v => (read v).map some

/-- Reads a list. -/
def list {α : Type} (read : Reader α) : Reader (List α)
  | .array vs => vs.mapM read
  | _ => none

/-- Reads a list of strings. -/
def strings : Reader (List String) := list string

end Reader

/-! ### Records -/

/-- The fields of a record whose fields have these names. -/
def fields? (names : List String) : Value → Option (List (String × Value))
  | .object members => some members
  | .array vs => if vs.length ≤ names.length then some (names.zip vs) else none
  | _ => none

/-- Reads a field that has a value when it is missing. -/
def fieldOr {α : Type} (fields : List (String × Value)) (name : String) (missing : α)
    (read : Reader α) : Option α :=
  match fields.lookup name with
  | none => some missing
  | some v => read v

/-- Reads a field that may be missing or `null`. -/
def field? {α : Type} (fields : List (String × Value)) (name : String) (read : Reader α) :
    Option (Option α) :=
  fieldOr fields name none (Reader.nullable read)

end ApiTypings.Json
