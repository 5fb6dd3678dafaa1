import ApiTypings.Decimal.Nearest
import ApiTypings.Decimal.Shortest
/-!
# Double precision numbers

A `Double` is a number of the 64-bit binary format, given by its bits. That makes equality of values
decidable and exact: `0.0` and `-0.0` are two values here. All arithmetic is done on fractions of
natural numbers and rounded once, to the nearest double.

**Reading.** There are two ways to read a decimal `digits * 10 ^ exponent`. `nearest?` gives the
double nearest to it. `scaled?` rounds both factors to double precision first and then multiplies or
divides them; the last place can differ from the nearest double. The numbers of interface files are
defined by the second way.

**Writing.** `Double.text` writes the shortest decimal. `Layout` holds the choices that the shortest
decimal leaves open.
-/

namespace ApiTypings

/-- A number of the 64-bit binary format. -/
structure Double where
  bits : UInt64
  deriving DecidableEq, Repr, Inhabited

namespace Double

/-! ### The parts of a double -/

/-- The bit of the sign. -/
def signBit : Nat := Nat.pow 2 63

/-- Whether the sign bit is set. -/
def isNegative (x : Double) : Bool :=
  x.bits.toNat / signBit = 1

/-- The bits without the sign bit. -/
def magnitudeBits (x : Double) : Nat :=
  x.bits.toNat % signBit

/-- Whether the double is a number, and not an infinity or no number at all. -/
def isFinite (x : Double) : Bool :=
  x.magnitudeBits < Decimal.infinityBits

/-- The exponent as it is stored. -/
def exponentField (x : Double) : Nat :=
  x.magnitudeBits / Nat.pow 2 52

/-- The significand without its leading bit. -/
def fraction (x : Double) : Nat :=
  x.magnitudeBits % Nat.pow 2 52

/-- The significand `m` of a finite number `m * 2 ^ q`. -/
def significand (x : Double) : Nat :=
  if x.exponentField = 0 then x.fraction else Nat.pow 2 52 + x.fraction

/-- The exponent `q` of a finite number `m * 2 ^ q`. -/
def exponent (x : Double) : Int :=
  (max x.exponentField 1 - 1 : Nat) + Decimal.minExponent

/-- The numerator of the magnitude of a finite number. -/
def num (x : Double) : Nat :=
  x.significand * Nat.pow 2 x.exponent.toNat

/-- The denominator of the magnitude of a finite number. -/
def den (x : Double) : Nat :=
  Nat.pow 2 (-x.exponent).toNat

/-! ### Rounding to a double -/

/-- The double nearest to `num / den`, or infinity if that is too large. -/
def nearest (num den : Nat) : Double :=
  ⟨.ofNat (Decimal.nearestBits num den)⟩

/-- A double without sign bit, with the sign bit or not. -/
def withSign (negative : Bool) (x : Double) : Double :=
  if negative then ⟨.ofNat (signBit + x.magnitudeBits)⟩ else x

/-- The double nearest to an integer. -/
def ofInt (n : Int) : Double :=
  withSign (n < 0) (nearest n.natAbs 1)

/-- The double nearest to the product of two finite positive doubles. -/
def mul (x y : Double) : Double :=
  nearest (x.num * y.num) (x.den * y.den)

/-- The double nearest to the quotient of two finite positive doubles. -/
def div (x y : Double) : Double :=
  nearest (x.num * y.den) (x.den * y.num)

/-- The double nearest to a power of ten. -/
def powerOfTen (n : Nat) : Double :=
  nearest (Nat.pow 10 n) 1

/-! ### Reading a decimal -/

/-- The largest power of ten that is finite in double precision. -/
def maxDecimalExponent : Nat := 308

/-- The positive number `digits * 10 ^ exponent` by one scaling, which is infinite if it is too
large. Scaling down by more than the largest power of ten is done in two steps, and by more than
twice as much gives zero. -/
def scaled (digits : Nat) (exponent : Int) : Double :=
  let limit : Int := maxDecimalExponent
  let x := nearest digits 1
  if digits = 0 then x
  else if limit < exponent then ⟨.ofNat Decimal.infinityBits⟩
  else if 0 ≤ exponent then x.mul (powerOfTen exponent.toNat)
  else if -limit ≤ exponent then x.div (powerOfTen (-exponent).toNat)
  else if -(2 * limit) ≤ exponent then
    (x.div (powerOfTen maxDecimalExponent)).div (powerOfTen (-exponent - limit).toNat)
  else nearest 0 1

/-- The double of a signed decimal by one scaling, or `none` if it is too large. -/
def scaled? (negative : Bool) (digits : Nat) (exponent : Int) : Option Double :=
  let x := scaled digits exponent
  if x.isFinite then some (withSign negative x) else none

/-- Beyond this many places before the point a decimal is too large for a double, and beyond this
many zeros after the point it is nearer to zero than to any other double. -/
def decimalReach : Nat := 400

/-- The double nearest to a signed decimal, or `none` if it is too large. -/
def nearest? (negative : Bool) (digits : Nat) (exponent : Int) : Option Double :=
  let lead := exponent + Decimal.digitCount digits
  let x := if digits = 0 ∨ lead < -decimalReach then nearest 0 1
    else if decimalReach < lead then ⟨.ofNat Decimal.infinityBits⟩
    else nearest (digits * Nat.pow 10 exponent.toNat) (Nat.pow 10 (-exponent).toNat)
  if x.isFinite then some (withSign negative x) else none

/-! ### Writing -/

/-- How a decimal is laid out: positionally if the exponent of its leading digit lies in a range,
and with an exponent otherwise. -/
structure Layout where
  /-- The least exponent that is written positionally. -/
  positionalFrom : Int
  /-- The greatest exponent that is written positionally. -/
  positionalTo : Int

/-- Numbers from `0.00001` up to sixteen digits before the point are written positionally. -/
def layout : Layout := ⟨-5, 15⟩

/-- The digits without zeros at the end. -/
def significantDigits (n : Nat) : List Char :=
  ((Nat.toDigits 10 n).reverse.dropWhile (· = '0')).reverse

/-- The digits `d₁d₂d₃…` of a number whose leading digit counts `10 ^ lead`, laid out. Positionally
there is always a digit after the point; with an exponent there is a point only before further
digits, and the exponent always has a sign. -/
def layOut (l : Layout) (digits : List Char) (lead : Int) : List Char :=
  if l.positionalFrom ≤ lead ∧ lead ≤ l.positionalTo then
    if lead < 0 then
      '0' :: '.' :: (List.replicate (-lead - 1).toNat '0' ++ digits)
    else
      let places := lead.toNat + 1
      let whole := digits.take places ++ List.replicate (places - digits.length) '0'
      whole ++ '.' :: (if digits.length ≤ places then ['0'] else digits.drop places)
  else
    let mantissa := match digits with
      | d :: e :: ds => d :: '.' :: e :: ds
      | ds => ds
    mantissa ++ 'e' :: (if lead < 0 then '-' else '+') :: Nat.toDigits 10 lead.natAbs

/-- The text of the magnitude of a finite number that is not zero. -/
def magnitudeText (x : Double) : List Char :=
  let s := Decimal.shortest x.significand x.exponent (x.fraction = 0 && 1 < x.exponentField)
  let digits := Nat.toDigits 10 s.digits
  layOut layout (significantDigits s.digits) (s.exponent + digits.length - 1)

/-- The text of a double: the shortest decimal that reads back. A number that is not finite has no
text of its own and is written as `null`; reading never produces one. -/
def text (x : Double) : String :=
  if x.isFinite then
    let magnitude := if x.magnitudeBits = 0 then ['0', '.', '0'] else x.magnitudeText
    String.ofList (if x.isNegative then '-' :: magnitude else magnitude)
  else "null"

end Double

end ApiTypings
