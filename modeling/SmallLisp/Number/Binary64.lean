/-!
# Double-precision numbers as exact integers

A finite double is a whole number of *grains*, the grain being the smallest
positive double, 2 to the power -1074. Setting the sign aside, its bit pattern
is a natural number, here called its magnitude, and the two are related by one
formula: with `s` doublings and a significand `m`, a double of `m * 2 ^ s`
grains has magnitude `s * 2 ^ 52 + m`. The formula needs no case for subnormal
numbers, where `s` is zero, nor for a significand that rounding carries to
`2 ^ 53`, where it lands on the next exponent.

All arithmetic here is exact, on natural numbers, so that reading and writing
decimals can be reasoned about without a word on rounding modes.
-/

namespace SmallLisp.Binary64

/-- The magnitude of an infinity; greater ones belong to values that are no
number. -/
def infinity : Nat :=
  2047 * Nat.pow 2 52

/-- The quotient rounded to the nearest whole number, a half going to the even
neighbour. -/
def roundDiv (num den : Nat) : Nat :=
  let q := num / den
  let r := num % den
  if 2 * r < den then q
  else if den < 2 * r then q + 1
  else q + q % 2

/-- The magnitude of the double nearest to the rational number `num / den`. -/
def nearest (num den : Nat) : Nat :=
  let grains := num * Nat.pow 2 1074
  let doublings := (grains / den).log2 - 52
  min (doublings * Nat.pow 2 52 + roundDiv grains (den * Nat.pow 2 doublings))
    infinity

/-- The number of grains in the double of a given finite magnitude. -/
def grains (magnitude : Nat) : Nat :=
  let top := Nat.pow 2 52
  if magnitude < top then magnitude
  else (magnitude % top + top) * Nat.pow 2 (magnitude / top - 1)

/-- The bit pattern of a double without its sign. -/
def magnitude (x : Float) : Nat :=
  x.toBits.toNat % Nat.pow 2 63

/-- Whether the sign bit of a double is set. -/
def isNegative (x : Float) : Bool :=
  Nat.pow 2 63 ≤ x.toBits.toNat

/-- The double with the given sign and magnitude. -/
def ofMagnitude (negative : Bool) (magnitude : Nat) : Float :=
  Float.ofBits
    (UInt64.ofNat (if negative then Nat.pow 2 63 + magnitude else magnitude))

/-- The double nearest to a whole number. -/
def ofInt (n : Int) : Float :=
  ofMagnitude (n < 0) (nearest n.natAbs 1)

/-- The whole number obtained by dropping the fraction, or nothing for a value
that is no number. An infinity answers like the number of grains its magnitude
would have, far beyond every 64-bit integer. -/
def truncate? (x : Float) : Option Int :=
  let m := magnitude x
  if infinity < m then none
  else
    let whole : Int := (grains m / Nat.pow 2 1074 : Nat)
    some (if isNegative x then -whole else whole)

end SmallLisp.Binary64
