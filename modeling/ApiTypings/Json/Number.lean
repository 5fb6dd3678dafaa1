import ApiTypings.Decimal.Double
/-!
# Numbers of JSON texts

A number is kept as an integer where 64 bits hold it, and as a double otherwise. `Numeral` is a
number as it is written, `Number` is its value, and `Numeral.value?` goes from one to the other.

**Digits.** The digits of a numeral are gathered into a significand of 64 bits. An integer digit
that no longer fits is not gathered but still scales by ten; from the first fraction digit that no
longer fits on, nothing is gathered. The significand is then scaled once (see `Double.scaled?`).
-/

namespace ApiTypings.Json

/-! ### Numerals -/

/-- A number as it is written. Digits are numbers below ten, in the order of writing. -/
structure Numeral where
  negative : Bool := false
  whole : List Nat := []
  /-- The digits after the point; `none` without a point. -/
  decimals : Option (List Nat) := none
  /-- The sign (`true` for minus) and the digits of the exponent; `none` without one. -/
  exponent : Option (Bool × List Nat) := none
  deriving DecidableEq, Repr, Inhabited

/-! ### Values -/

/-- The value of a number: an integer that fits 64 bits, or a double. -/
inductive Number
  | integer (value : Int)
  | double (value : Double)
  deriving DecidableEq, Repr, Inhabited

namespace Number

/-- The text of a number. -/
def text : Number → String
  | integer n => toString n
  | double x => x.text

/-- A number as a double. -/
def toDouble : Number → Double
  | integer n => Double.ofInt n
  | double x => x

/-- A natural number below a bound. A double is never one, even if it has no fraction. -/
def natBelow? (bound : Nat) : Number → Option Nat
  | integer n => if 0 ≤ n ∧ n < bound then some n.toNat else none
  | double _ => none

end Number

/-! ### Reading -/

namespace Numeral

/-- One more than the largest 64-bit natural number. -/
def wordBound : Nat := Nat.pow 2 64

/-- Gathers digits while they fit; answers the significand and the digits that did not fit. -/
def gather (significand : Nat) : List Nat → Nat × List Nat
  | [] => (significand, [])
  | d :: ds =>
    if significand * 10 + d < wordBound then gather (significand * 10 + d) ds
    else (significand, d :: ds)

/-- The number that digits write. -/
def natOfDigits (ds : List Nat) : Nat :=
  ds.foldl (fun n d => n * 10 + d) 0

/-- The exponent as an integer. -/
def exponentValue (n : Numeral) : Int :=
  match n.exponent with
  | none => 0
  | some (minus, ds) => if minus then -natOfDigits ds else natOfDigits ds

/-- The double nearest to what a numeral writes, all its digits counted, or `none` if it is too
large. -/
def nearest? (n : Numeral) : Option Double :=
  let decimals := n.decimals.getD []
  Double.nearest? n.negative (natOfDigits (n.whole ++ decimals)) (n.exponentValue - decimals.length)

/-- The value of a numeral, or `none` if it is too large for a double. Without point and exponent it
is an integer if 64 bits hold it; `-0` is the double of that sign. -/
def value? (n : Numeral) : Option Number :=
  let (whole, dropped) := gather 0 n.whole
  if n.decimals.isNone ∧ n.exponent.isNone ∧ dropped.isEmpty then
    if !n.negative then some (.integer whole)
    else if 0 < whole ∧ whole ≤ Nat.pow 2 63 then some (.integer (-whole))
    else (Double.scaled? true whole 0).map .double
  else
    let decimals := n.decimals.getD []
    let (significand, ignored) := gather whole decimals
    let places : Int := decimals.length - ignored.length
    (Double.scaled? n.negative significand (dropped.length - places + n.exponentValue)).map
      .double

end Numeral

end ApiTypings.Json
