/-!
# The nearest double

The numbers of the 64-bit binary format are the `m * 2 ^ q` with a significand `m` below `2 ^ 53`
and an exponent `q` that is at least `minExponent`; a number with a smaller significand than `2 ^
52` only counts with the least exponent. `nearestBits` finds the nearest one to a fraction, by one
division of natural numbers.

**The bits.** Stored as bits, a number is `(q - minExponent) * 2 ^ 52 + m`. The order of the bits is
the order of the numbers, so a significand that is rounded up to `2 ^ 53` carries into the exponent,
and a number that is too large has at least the bits of infinity.
-/

namespace ApiTypings.Decimal

/-! ### Rounding -/

/-- The natural number nearest to `num / den`; of two equally near ones, the even one. -/
def roundDiv (num den : Nat) : Nat :=
  let below := num / den
  let twice := 2 * (num % den)
  if twice < den then below
  else if den < twice then below + 1
  else below + below % 2

/-- A whole quotient is not rounded. -/
theorem roundDiv_mul_left (n : Nat) {den : Nat} (h : 0 < den) : roundDiv (den * n) den = n := by
  simp [roundDiv, Nat.mul_div_cancel_left n h, h]

/-! ### The format -/

/-- The least exponent of a significand. -/
def minExponent : Int := -1074

/-- The bits of positive infinity. They are above those of every finite positive number. -/
def infinityBits : Nat := 2047 * Nat.pow 2 52

/-- The exponent `e` of the leading bit of a positive fraction: `2 ^ e ≤ num / den < 2 ^ (e + 1)`.
-/
def leadingBit (num den : Nat) : Int :=
  let e : Int := (num.log2 : Int) - den.log2
  if den * Nat.pow 2 e.toNat ≤ num * Nat.pow 2 (-e).toNat then e else e - 1

/-- The bits of the number nearest to `num / den`; those of infinity if it is too large. -/
def nearestBits (num den : Nat) : Nat :=
  if num = 0 then 0
  else
    let q := max (leadingBit num den - 52) minExponent
    let m := roundDiv (num * Nat.pow 2 (-q).toNat) (den * Nat.pow 2 q.toNat)
    min ((q - minExponent).toNat * Nat.pow 2 52 + m) infinityBits

/-- Nothing is nearest to a number beyond infinity. -/
theorem nearestBits_le (num den : Nat) : nearestBits num den ≤ infinityBits := by
  unfold nearestBits
  split
  · exact Nat.zero_le _
  · exact Nat.min_le_right _ _

end ApiTypings.Decimal
