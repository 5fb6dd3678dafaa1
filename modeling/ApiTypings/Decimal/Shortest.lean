/-!
# The shortest decimal of a binary number

A binary floating-point number `m * 2 ^ q` stands for every real that rounds to it. Its shortest
decimal is the one with the fewest digits among them; of two such decimals the nearer one counts,
and of two equally near ones the one with the even last digit.

**How it is found.** For each count of digits in turn, only the two neighbours of the number on the
grid of decimals with that many digits can be nearest to it, so only they are tested against the
interval of reals that round to the number. All comparisons are made on natural numbers, by cross
multiplication. Seventeen digits always suffice for a significand of 53 bits.
-/

namespace ApiTypings.Decimal

/-- How many decimal digits a natural number has; zero has one. -/
def digitCount (n : Nat) : Nat :=
  (Nat.toDigits 10 n).length

/-- The exponent `e` of the leading digit of a positive fraction `num / den`:
`10 ^ e ≤ num / den < 10 ^ (e + 1)`. -/
def leadingExponent (num den : Nat) : Int :=
  if den ≤ num then digitCount (num / den) - 1
  else -(digitCount ((den + num - 1) / num - 1) : Int)

/-- A decimal `digits * 10 ^ exponent`. -/
structure Scaled where
  digits : Nat
  exponent : Int
  deriving DecidableEq, Repr

/-- A positive fraction written with a power of two and a power of ten taken out, so that numbers of
both bases can be compared: `value * 2 ^ two * 10 ^ ten`. -/
structure Mixed where
  value : Nat
  two : Int
  ten : Int

namespace Mixed

/-- The numerator over the common denominator with `other`. -/
def numerator (x other : Mixed) : Nat :=
  x.value * Nat.pow 2 (x.two - min x.two other.two).toNat
    * Nat.pow 10 (x.ten - min x.ten other.ten).toNat

/-- Whether one mixed fraction is less than another. -/
def lt (x y : Mixed) : Bool :=
  x.numerator y < y.numerator x

/-- The distance between two mixed fractions. -/
def dist (x y : Mixed) : Mixed :=
  let a := x.numerator y
  let b := y.numerator x
  ⟨(a - b) + (b - a), min x.two y.two, min x.ten y.ten⟩

end Mixed

/-- The reals that round to `m * 2 ^ q`. The ends are half way to the neighbouring numbers; they
belong to the interval if `m` is even, because a tie rounds to the even neighbour. -/
structure Interval where
  low : Mixed
  high : Mixed
  closed : Bool

/-- The interval of `m * 2 ^ q`. Below a power of two (`narrow`) the numbers lie twice as dense, so
the lower half gap is half as wide. -/
def Interval.around (m : Nat) (q : Int) (narrow : Bool) : Interval where
  low := ⟨4 * m - (if narrow then 1 else 2), q - 2, 0⟩
  high := ⟨4 * m + 2, q - 2, 0⟩
  closed := m % 2 = 0

/-- Whether a fraction lies in the interval. -/
def Interval.contains (i : Interval) (x : Mixed) : Bool :=
  if i.closed then !x.lt i.low && !i.high.lt x else i.low.lt x && x.lt i.high

/-- The decimal with `n` digits that is nearest to `m * 2 ^ q` among those in the interval. -/
def nearestWith? (i : Interval) (m : Nat) (q : Int) (lead : Int) (n : Nat) : Option Scaled :=
  let ten := lead - n + 1
  let exact : Mixed := ⟨m, q, 0⟩
  let unit : Mixed := ⟨1, 0, ten⟩
  let below := exact.numerator unit / unit.numerator exact
  let down : Mixed := ⟨below, 0, ten⟩
  let up : Mixed := ⟨below + 1, 0, ten⟩
  match i.contains down && below != 0, i.contains up with
  | false, false => none
  | true, false => some ⟨below, ten⟩
  | false, true => some ⟨below + 1, ten⟩
  | true, true =>
    if (exact.dist down).lt (exact.dist up) then some ⟨below, ten⟩
    else if (exact.dist up).lt (exact.dist down) then some ⟨below + 1, ten⟩
    else if below % 2 = 0 then some ⟨below, ten⟩ else some ⟨below + 1, ten⟩

/-- The shortest decimal of the positive number `m * 2 ^ q`. -/
def shortest (m : Nat) (q : Int) (narrow : Bool) : Scaled :=
  let i := Interval.around m q narrow
  let lead := leadingExponent (m * Nat.pow 2 q.toNat) (Nat.pow 2 (-q).toNat)
  ((List.range 17).findSome? fun n => nearestWith? i m q lead (n + 1)).getD ⟨m, 0⟩

end ApiTypings.Decimal
