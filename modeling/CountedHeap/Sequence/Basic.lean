import CountedHeap.Heap.Clone

/-!
Contract: arrays and programs as lists that grow.

A position is a signed offset: zero is the first element, a negative offset counts from the
end, and one that reaches before the first element is a miss.  A value that is neither an
array nor a program is a miss too.  A miss answers the absent value and changes nothing.

Owns:
- positions;
- opening and closing gaps, and the operations on single elements built from them;
- slices, splices, bounded queues and reversal.

An element that is stored is owned and retained; one that leaves is released, so what an
operation answers may be held by nobody.
-/

namespace CountedHeap

/-- The position that an offset means in a list of `length` elements.  A position may lie at
or past the end. -/
def position? (length : Nat) (offset : Int) : Option Nat :=
  if 0 ≤ offset then some offset.toNat
  else if offset.natAbs ≤ length then some (length - offset.natAbs)
  else none

/-- An offset that is not negative means itself. -/
@[simp] theorem position?_ofNat (length index : Nat) :
    position? length (index : Int) = some index := by
  simp [position?]

/-- A negative offset never means a position past the end. -/
theorem position?_lt_length {length index : Nat} {offset : Int} (negative : offset < 0)
    (found : position? length offset = some index) : index < length := by
  simp only [position?] at found
  split at found
  · omega
  · split at found
    · simp only [Option.some.injEq] at found
      omega
    · simp at found

namespace Heap

variable {σ : Signature}

/-- The position that an offset means in a sequence. -/
def itemPosition? (heap : Heap σ) (sequence : Value) (offset : Int) : Option Nat := do
  let items ← heap.items? sequence
  position? items.length offset

/-! ## Gaps -/

/-- Open a gap of `count` absent elements at a position.  The list is first padded up to the
position; then it grows at the end, and its tail is rotated so that the new elements come to
lie at the position. -/
def expandItems (heap : Heap σ) (sequence : Value) (offset : Int) (count : Nat) :
    Except Exhausted (Bool × Heap σ) :=
  match heap.items? sequence with
  | none => .ok (false, heap)
  | some items =>
      match position? items.length offset with
      | none => .ok (false, heap)
      | some index => do
          let reached ← padTo index items
          let grown ← padTo (reached.length + count) reached
          let rotated := grown.take index ++ (grown.drop index).rotateRight count
          return (true, heap.setChildren sequence rotated)

/-- Remove up to `count` elements from a position on and release them.  Answers how many
were removed. -/
def collapseItems (heap : Heap σ) (sequence : Value) (offset : Int) (count : Nat) :
    Nat × Heap σ :=
  match heap.items? sequence with
  | none => (0, heap)
  | some items =>
      match position? items.length offset with
      | none => (0, heap)
      | some index =>
          let removed := (items.drop index).take count
          (removed.length,
            (heap.setChildren sequence
              (items.take index ++ items.drop (index + count))).releaseAll removed)

/-! ## Single elements -/

/-- The element at a position. -/
def getItem (heap : Heap σ) (sequence : Value) (offset : Int) : Value :=
  match heap.items? sequence with
  | none => .null
  | some items =>
      match position? items.length offset with
      | none => .null
      | some index => items[index]?.getD .null

/-- Put an element in the place of another.  The new one is retained before the old one is
released, so storing an element over itself loses no count.  Answers the old element. -/
def replaceItem (heap : Heap σ) (sequence : Value) (items : List Value) (index : Nat)
    (element : Value) : Value × Heap σ :=
  let previous := items[index]?.getD .null
  let stored := heap.setChildren sequence (items.set index element)
  (previous, (stored.retain element).release previous)

/-- Store an element at a position, padding the list up to it.  Answers the element that was
there before. -/
def setItem (heap : Heap σ) (sequence element : Value) (offset : Int) :
    Except Exhausted (Value × Heap σ) :=
  match heap.itemPosition? sequence offset with
  | none => .ok (.null, heap)
  | some index =>
      let (element, heap) := heap.own element
      match heap.items? sequence with
      | none => .ok (.null, heap)
      | some items => do
          let reached ← padTo (index + 1) items
          return heap.replaceItem sequence reached index element

/-- Insert an element before a position, padding the list up to it.  Answers the element as
it was stored. -/
def insertItem (heap : Heap σ) (sequence element : Value) (offset : Int) :
    Except Exhausted (Value × Heap σ) :=
  match heap.itemPosition? sequence offset with
  | none => .ok (.null, heap)
  | some index => do
      let (element, heap) := heap.own element
      let (_, heap) ← heap.expandItems sequence index 1
      let (_, heap) ← heap.setItem sequence element index
      return (element, heap)

/-- Remove the element at a position.  Answers it after it was released. -/
def deleteItem (heap : Heap σ) (sequence : Value) (offset : Int) : Value × Heap σ :=
  match heap.itemPosition? sequence offset with
  | none => (.null, heap)
  | some index =>
      let removed := heap.getItem sequence index
      (removed, (heap.collapseItems sequence index 1).2)

/-- Add an element at the end.  Answers the element as it was stored. -/
def pushItem (heap : Heap σ) (sequence element : Value) :
    Except Exhausted (Value × Heap σ) :=
  heap.insertItem sequence element (heap.size sequence)

/-- Remove the last element. -/
def popItem (heap : Heap σ) (sequence : Value) : Value × Heap σ :=
  heap.deleteItem sequence (-1)

/-- Remove `count` elements from the front, one by one.  Answers the first of them that is
not absent. -/
def evictItems (sequence : Value) : Nat → Value → Heap σ → Value × Heap σ
  | 0, evicted, heap => (evicted, heap)
  | count + 1, evicted, heap =>
      let (removed, heap) := heap.deleteItem sequence 0
      evictItems sequence count (if evicted.isNull then removed else evicted) heap

/-- Push onto a queue of at most `capacity` elements, making room at the front.  Answers the
first evicted element that is not absent.  A capacity of zero is a miss. -/
def queueItem (heap : Heap σ) (sequence element : Value) (capacity : Nat) :
    Except Exhausted (Value × Heap σ) :=
  match heap.items? sequence with
  | none => .ok (.null, heap)
  | some items =>
      if capacity = 0 then .ok (.null, heap)
      else do
        let (evicted, heap) := evictItems sequence (items.length + 1 - capacity) .null heap
        let (_, heap) ← heap.pushItem sequence element
        return (evicted, heap)

/-! ## Ranges -/

/-- A new array of up to `count` elements from a position on.  Of an array or a program even
a miss answers an array, an empty one. -/
def sliceItems (heap : Heap σ) (sequence : Value) (offset : Int) (count : Nat) :
    Value × Heap σ :=
  match heap.items? sequence with
  | none => (.null, heap)
  | some items =>
      match position? items.length offset with
      | none => heap.arrayOf []
      | some index => heap.arrayOf ((items.drop index).take count)

/-- Store the elements of a list one after another, from a position on. -/
def setItemsFrom (sequence : Value) : Nat → List Value → Heap σ → Except Exhausted (Heap σ)
  | _, [], heap => .ok heap
  | index, element :: rest, heap => do
      let (_, heap) ← heap.setItem sequence element index
      setItemsFrom sequence (index + 1) rest heap

/-- Replace up to `count` elements from a position on by the elements of a list.  Answers a
new array of what was replaced; the array is made first, so it keeps the elements alive. -/
def spliceItems (heap : Heap σ) (sequence : Value) (offset : Int) (count : Nat)
    (inserted : List Value) : Except Exhausted (Value × Heap σ) :=
  match heap.itemPosition? sequence offset with
  | none => .ok (.null, heap)
  | some index => do
      let (removed, heap) := heap.sliceItems sequence index count
      let (_, heap) := heap.collapseItems sequence index count
      let (_, heap) ← heap.expandItems sequence index inserted.length
      let heap ← setItemsFrom sequence index inserted heap
      return (removed, heap)

/-- Reverse a sequence in place. -/
def reverseItems (heap : Heap σ) (sequence : Value) : Bool × Heap σ :=
  match heap.items? sequence with
  | none => (false, heap)
  | some items => (true, heap.setChildren sequence items.reverse)

end Heap

end CountedHeap
