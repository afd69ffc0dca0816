import CountedHeap.Decimal.Reading
import CountedHeap.Heap.Basic

/-!
Contract: every value as a number.

Strings read as the number at their start, containers as their size, and what is neither as
zero.

Owns: the integer and the real reading of a value.
-/

namespace CountedHeap.Heap

variable {σ : Signature}

/-- A value as an integer.  Reals lose their fraction and stop at the ends of the range. -/
def asInt (heap : Heap σ) (value : Value) : Int64 :=
  match heap.payload value with
  | .int number => number
  | .real number => Decimal.truncate number
  | .text characters => Decimal.integerPrefix characters
  | .array items | .program items => Int64.ofNat items.length
  | .hash table => Int64.ofNat table.pairs
  | .null | .exec _ | .file _ => 0

/-- A value as a real.  Integers round to the nearest real. -/
def asReal (heap : Heap σ) (value : Value) : Float :=
  match heap.payload value with
  | .int number => Decimal.realOfInt number.toInt
  | .real number => number
  | .text characters => Decimal.realPrefix characters
  | .array items | .program items => Decimal.realOfInt items.length
  | .hash table => Decimal.realOfInt table.pairs
  | .null | .exec _ | .file _ => Decimal.realOfInt 0

end CountedHeap.Heap
