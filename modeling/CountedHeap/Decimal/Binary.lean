/-!
Contract: the numbers behind the bits of a real.

A finite real is `± mantissa * 2 ^ exponent` with a mantissa below `2 ^ 53`.

Owns:
- taking a real apart into sign, mantissa and exponent;
- the real nearest to an exact fraction, ties to the even mantissa;
- conversion between reals and 64-bit integers.
-/

namespace CountedHeap.Decimal

/-- A real, read off its bits. -/
inductive Unpacked where
  | nan
  | infinite (negative : Bool)
  | finite (negative : Bool) (mantissa : Nat) (exponent : Int)
deriving DecidableEq, Repr

/-- Take a real apart.  Exponent field zero marks the subnormal reals, which have no
implicit leading bit; the largest exponent field marks infinities and NaN. -/
def unpack (real : Float) : Unpacked :=
  let bits := real.toBits.toNat
  let negative := bits / Nat.pow 2 63 == 1
  let field : Nat := bits / Nat.pow 2 52 % Nat.pow 2 11
  let fraction : Nat := bits % Nat.pow 2 52
  if field = 2047 then
    if fraction = 0 then .infinite negative else .nan
  else if field = 0 then
    .finite negative fraction (-1074)
  else
    .finite negative (fraction + Nat.pow 2 52) ((field : Int) - 1075)

/-- The whole number nearest to `numerator / denominator`, ties to even. -/
def roundedQuotient (numerator denominator : Nat) : Nat :=
  let quotient := numerator / denominator
  let twice := 2 * (numerator % denominator)
  if twice < denominator then quotient
  else if denominator < twice then quotient + 1
  else quotient + quotient % 2

/-- The bits of positive infinity.  Every magnitude that rounds to this or above is
infinite. -/
def infinityBits : Nat := 2047 * Nat.pow 2 52

/-- The bits of the non-negative real nearest to `numerator / denominator`.

The unit in the last place is `2 ^ scale`: 52 binary places below the leading bit of the
fraction, and never below `2 ^ -1074`.  Adding the rounded count of units to the exponent
field carries correctly, both from the subnormal to the normal reals and into the next
exponent. -/
def nearestBits (numerator denominator : Nat) : Nat :=
  if numerator = 0 then 0
  else
    let estimate : Int := numerator.log2 - denominator.log2
    let reached :=
      denominator * Nat.pow 2 estimate.toNat ≤ numerator * Nat.pow 2 (-estimate).toNat
    let leading := if reached then estimate else estimate - 1
    let scale := max (leading - 52) (-1074)
    let units :=
      roundedQuotient (numerator * Nat.pow 2 (-scale).toNat)
        (denominator * Nat.pow 2 scale.toNat)
    min infinityBits ((scale + 1074).toNat * Nat.pow 2 52 + units)

/-- The real nearest to `± numerator / denominator`. -/
def nearest (negative : Bool) (numerator denominator : Nat) : Float :=
  let sign := if negative then Nat.pow 2 63 else 0
  Float.ofBits (UInt64.ofNat (sign + nearestBits numerator denominator))

/-- The real nearest to an integer. -/
def realOfInt (number : Int) : Float :=
  nearest (decide (number < 0)) number.natAbs 1

/-- The integer part of `mantissa * 2 ^ exponent`. -/
def wholePart (mantissa : Nat) (exponent : Int) : Nat :=
  mantissa * Nat.pow 2 exponent.toNat / Nat.pow 2 (-exponent).toNat

/-- Whether `mantissa * 2 ^ exponent` is a whole number. -/
def isWhole (mantissa : Nat) (exponent : Int) : Bool :=
  mantissa * Nat.pow 2 exponent.toNat % Nat.pow 2 (-exponent).toNat == 0

/-- Attach a sign to a magnitude. -/
def signed (negative : Bool) (magnitude : Nat) : Int :=
  if negative then -magnitude else magnitude

/-- A real as a 64-bit integer: the fraction is dropped, a magnitude out of range becomes
the nearest end of the range, and NaN is zero. -/
def truncate (real : Float) : Int64 :=
  match unpack real with
  | .nan => 0
  | .infinite true => Int64.minValue
  | .infinite false => Int64.maxValue
  | .finite negative mantissa exponent =>
      Int64.ofIntClamp (signed negative (wholePart mantissa exponent))

/-- Compare two reals as numbers.  NaN is unordered, and an unordered pair counts as
equal, as the two zeros do. -/
def compareReal (left right : Float) : Ordering :=
  if left < right then .lt else if right < left then .gt else .eq

end CountedHeap.Decimal
