import CountedHeap.Order
import CountedHeap.Records.Seek

/-!
Contract: finding a record in an array by the order of values.

Owns:
- the linear search, which looks at every leading position of a record, that of an
  incomplete last record included;
- the binary search of a sorted array, which looks at whole records only.
-/

namespace CountedHeap.Heap

variable {σ : Signature}

/-- The position of the first record whose leading element equals the key. -/
def linearSeek (heap : Heap σ) (sequence key : Value) (step : Nat) : Option Nat :=
  match heap.items? sequence with
  | none => none
  | some items =>
      let step := max step 1
      let positions := (List.range ((items.length + step - 1) / step)).map (· * step)
      positions.find? fun index =>
        items[index]?.any fun element => heap.compare element key == .eq

/-- The position of the first record whose leading element equals the key, in an array of
records sorted by their leading elements. -/
def binarySeek (heap : Heap σ) (sequence key : Value) (step : Nat) : Seek :=
  match heap.items? sequence with
  | none => .missing 0
  | some items => Records.seek items step fun element => heap.compare element key

end CountedHeap.Heap
