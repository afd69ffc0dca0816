import CountedHeap.Coercion
import CountedHeap.Rendering

/-!
Contract: the order of all values.

Absent values come first.  Numbers compare as numbers.  Containers of one kind compare by
size, then child by child.  Callables and files compare by identity.  Everything else, two
strings among it, compares by text.

Owns: the comparison, and the nesting level at which containers compare by identity.
-/

namespace CountedHeap.Heap

variable {σ : Signature}

/-- Containers nested this deeply are no longer looked into. -/
def compareLevels : Nat := 64

/-- Compare two lists of children: the first difference decides, then the length. -/
def compareEach (compareChild : Value → Value → Ordering) :
    List Value → List Value → Ordering
  | left :: lefts, right :: rights =>
      match compareChild left right with
      | .eq => compareEach compareChild lefts rights
      | decided => decided
  | [], [] => .eq
  | [], _ :: _ => .lt
  | _ :: _, [] => .gt

/-- Compare two values, looking into containers for `levels` more levels. -/
def compareWithin (heap : Heap σ) : Nat → Value → Value → Ordering
  | levels, left, right =>
      if left = right then .eq
      else
        let leftKind := heap.kind left
        let rightKind := heap.kind right
        if leftKind = .null ∧ rightKind = .null then .eq
        else if leftKind = .null then .lt
        else if rightKind = .null then .gt
        else if leftKind = .int ∧ rightKind = .int then
          compare (heap.asInt left) (heap.asInt right)
        else if leftKind.isNumeric ∧ rightKind.isNumeric then
          Decimal.compareReal (heap.asReal left) (heap.asReal right)
        else if leftKind = rightKind ∧ leftKind.isMulti then
          match levels with
          | 0 => left.compareIdentity right
          | levels + 1 =>
              match compare (heap.size left) (heap.size right) with
              | .eq =>
                  compareEach (heap.compareWithin levels) (heap.children left)
                    (heap.children right)
              | decided => decided
        else if leftKind = rightKind ∧ (leftKind = .exec ∨ leftKind = .file) then
          left.compareIdentity right
        else compare (heap.text left) (heap.text right)

/-- The order of two values. -/
def compare (heap : Heap σ) (left right : Value) : Ordering :=
  heap.compareWithin compareLevels left right

end CountedHeap.Heap
