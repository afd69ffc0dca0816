import CountedHeap.Call.Action
import CountedHeap.Order
import CountedHeap.Records.MergeSort

/-!
Contract: sorting the records of an array.

The items leave the array while they are compared, so a comparator finds it empty and may
do with it what it likes.  Afterwards the array holds either the sorted items or, after a
fault, the items it had before; what the comparator stored meanwhile is released.

Owns: the two questions by which records are ordered, detaching and restoring the items, and
the sort.
-/

namespace CountedHeap

variable {σ : Signature}

/-- Ask the order of values whether one element precedes another. -/
def precedesInOrder (left right : Value) : Action σ Bool :=
  Action.ask fun heap => heap.compare left right == .lt

/-- Ask a comparator.  The sign of its answer counts. -/
def precedesBy (call : Caller σ) (comparator left right : Value) : Action σ Bool := do
  let answer ← call comparator [left, right]
  Action.ask fun heap => decide (heap.asInt answer < 0)

/-- Ask a question about the leading elements of two records. -/
def askLeading (question : Value → Value → Action σ Bool) (left right : List Value) :
    Action σ Bool :=
  question (left.headD .null) (right.headD .null)

/-- Put detached items back and release what was stored in their place.  A sequence that is
gone takes its items with it, uncounted. -/
def Heap.restoreItems (heap : Heap σ) (sequence : Value) (items : List Value) : Heap σ :=
  match heap.items? sequence with
  | some strays => (heap.setChildren sequence items).releaseAll strays
  | none => heap

/-- Sort the `step`-sized records of an array or a program by their leading elements.  Items
after the last whole record stay behind.  A comparator that cannot be called is not used,
and any other value is left alone. -/
def sortItems (call : Caller σ) (sequence : Value) (step : Nat) (comparator : Option Value) :
    Action σ Unit :=
  fun heap =>
    match heap.items? sequence with
    | none => .ok (.ok (), heap)
    | some items => do
        let step := max step 1
        let (records, rest) := Records.cutRecords step (items.length / step) items
        let detached := heap.setChildren sequence []
        let question := match comparator.filter detached.isExecutable with
          | some function => precedesBy call function
          | none => precedesInOrder
        let (outcome, after) ←
          (Records.mergeSortM (m := Action σ) (askLeading question) records) detached
        match outcome with
        | .ok sorted => return (.ok (), after.restoreItems sequence (sorted.flatten ++ rest))
        | .error fault => return (.error fault, after.restoreItems sequence items)

end CountedHeap
