import CountedHeap.Decimal.Binary

/-!
Contract: the shortest decimal that reads back as a given real.

The reals nearest to a positive finite real `v` fill an interval around it.  Of all decimals
`digits * 10 ^ scale` in the interval the shortest has the largest scale, and among the
decimals of that scale the one nearest to `v` is taken, a tie going to even digits.

The program takes its printer of reals from a library (`ryu`).  This module computes the digits
that the library promises, not by its tables but by a search.

Owns: the interval, the grid of one scale, and the search over scales.  All arithmetic is
on exact integers.
-/

namespace CountedHeap.Decimal

/-- A positive decimal, `digits * 10 ^ scale`. -/
structure Scaled where
  digits : Nat
  scale : Int
deriving DecidableEq, Repr

/-- The interval of numbers that read back as one real, and the real itself, as numerators
over a common denominator.  The ends belong to the interval if the mantissa is even. -/
structure Interval where
  low : Nat
  middle : Nat
  high : Nat
  denominator : Nat
  closed : Bool
deriving DecidableEq, Repr

/-- The interval around `mantissa * 2 ^ exponent`.

In quarters of the last place the interval reaches two quarters up, and two quarters down.
Below a power of two the reals are twice as dense, so there it reaches one quarter down;
at the smallest exponent the density does not change. -/
def Interval.around (mantissa : Nat) (exponent : Int) : Interval :=
  let down := if mantissa = Nat.pow 2 52 ∧ -1074 < exponent then 1 else 2
  let up := Nat.pow 2 (exponent - 2).toNat
  { low := (4 * mantissa - down) * up
    middle := 4 * mantissa * up
    high := (4 * mantissa + 2) * up
    denominator := Nat.pow 2 (2 - exponent).toNat
    closed := mantissa % 2 == 0 }

namespace Interval

/-- Whether `numerator / denominator` of the interval's own denominator lies inside. -/
def contains (interval : Interval) (numerator : Nat) : Bool :=
  if interval.closed then
    decide (interval.low ≤ numerator) && decide (numerator ≤ interval.high)
  else
    decide (interval.low < numerator) && decide (numerator < interval.high)

/-- The same interval measured in units of `10 ^ scale`. -/
def rescale (interval : Interval) (scale : Int) : Interval :=
  let finer := Nat.pow 10 (-scale).toNat
  { interval with
    low := interval.low * finer
    middle := interval.middle * finer
    high := interval.high * finer
    denominator := interval.denominator * Nat.pow 10 scale.toNat }

/-- The whole number in the interval that is nearest to its middle.  Only the two
neighbours of the middle have to be tried: if any whole number lies inside, so does one of
them. -/
def nearestWhole? (interval : Interval) : Option Nat :=
  let below := interval.middle / interval.denominator
  let belowInside := interval.contains (below * interval.denominator)
  let aboveInside := interval.contains ((below + 1) * interval.denominator)
  if belowInside && aboveInside then
    some (roundedQuotient interval.middle interval.denominator)
  else if belowInside then some below
  else if aboveInside then some (below + 1)
  else none

/-- The decimal of one scale that lies in the interval, nearest to its middle. -/
def atScale? (interval : Interval) (scale : Int) : Option Scaled :=
  (interval.rescale scale).nearestWhole?.map (⟨·, scale⟩)

/-- A scale above every decimal in the interval.  `0.30103` is slightly more than the
decimal logarithm of two. -/
def topScale (interval : Interval) : Int :=
  let binary : Int := interval.high.log2 + 1 - interval.denominator.log2
  (binary * 30103).fdiv 100000 + 2

end Interval

/-- The shortest decimal that reads back as `mantissa * 2 ^ exponent`, nearest first.

Seventeen digits always suffice and the search starts at most four scales too high, so it
never comes to the exact value at the end. -/
def shortest (mantissa : Nat) (exponent : Int) : Scaled :=
  let interval := Interval.around mantissa exponent
  let top := interval.topScale
  match (List.range 24).findSome? fun (step : Nat) => interval.atScale? (top - step) with
  | some scaled => scaled
  | none =>
      ⟨mantissa * Nat.pow 2 exponent.toNat * Nat.pow 5 (-exponent).toNat, min exponent 0⟩

end CountedHeap.Decimal
