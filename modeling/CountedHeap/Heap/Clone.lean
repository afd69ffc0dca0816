import CountedHeap.Heap.Basic

/-!
Contract: copying values for storage.

A container may only hold long-lived values, so a scratch value is copied before it is
stored.  A copy of a container is a container of copies; one met twice is copied once, so
sharing and cycles survive.

Owns:
- copying one value with everything below it;
- `own`, which copies scratch values only;
- the containers that are created with their content.
-/

namespace CountedHeap

namespace Payload

variable {σ : Signature}

/-- The same container without references.  A hash keeps its pair count. -/
def shell? (payload : Payload σ) : Option (Payload σ) :=
  if payload.kind.isMulti then some (payload.withChildren []) else none

theorem shell?_eq_some_iff {payload shell : Payload σ} :
    payload.shell? = some shell ↔
      payload.kind.isMulti = true ∧ payload.withChildren [] = shell := by
  simp [shell?]

theorem shell?_eq_none_iff {payload : Payload σ} :
    payload.shell? = none ↔ payload.kind.isMulti = false := by
  simp [shell?]

/-- Whether a scratch value with this payload has a copy outside its scope. -/
def isPlainData : Payload σ → Bool
  | .text _ | .int _ | .real _ => true
  | _ => false

end Payload

namespace Heap

variable {σ : Signature}

/-- The containers copied so far, each with its copy. -/
abbrev Copies := List (Value × Value)

/-- Copy every value of a list and retain each copy as soon as it is made. -/
def cloneEach (clone : Copies → Value → Heap σ → Value × Copies × Heap σ) :
    Copies → List Value → Heap σ → List Value × Copies × Heap σ
  | copies, [], heap => ([], copies, heap)
  | copies, value :: rest, heap =>
      let (copy, copies, heap) := clone copies value heap
      let (others, copies, heap) := cloneEach clone copies rest (heap.retain copy)
      (copy :: others, copies, heap)

/-- Copy a value below at most `depth` containers.

A container that was copied before answers its copy.  A new one is entered among the copies
with its shell before its children are copied, so a path back to it ends there.  A
long-lived scalar never changes and is its own copy; a scratch string or number gets a cell
of its own; a scratch value of another kind has no copy. -/
def cloneWithin : Nat → Copies → Value → Heap σ → Value × Copies × Heap σ
  | 0, copies, _, heap => (.null, copies, heap)
  | depth + 1, copies, value, heap =>
      match copies.lookup value with
      | some copy => (copy, copies, heap)
      | none =>
          match heap.cell? value with
          | none => (.null, copies, heap)
          | some cell =>
              match cell.payload.shell? with
              | some shell =>
                  let (copy, heap) := heap.create shell
                  let (children, copies, heap) :=
                    cloneEach (cloneWithin depth) ((value, copy) :: copies)
                      cell.payload.children heap
                  (copy, copies, heap.setChildren copy children)
              | none =>
                  if value.isScratch then
                    if cell.payload.isPlainData then
                      let (copy, heap) := heap.create cell.payload
                      (copy, copies, heap)
                    else (.null, copies, heap)
                  else (value, copies, heap)

/-- All references in the heap, with repetition. -/
def references (heap : Heap σ) : List Value :=
  heap.handles.flatMap heap.children

/-- No copy goes deeper than this.

A nest of containers in a copy never repeats a container, so it is no longer than the number
of containers.  These are the ones of the heap and copies of them, and a copy is copied
again only if a reference in the heap foretold its handle, which can double their number
once for each reference. -/
def cloneDepth (heap : Heap σ) : Nat :=
  Nat.pow 2 (heap.handles.length + heap.references.length + 1)

/-- Copy a value and everything below it. -/
def clone (heap : Heap σ) (value : Value) : Value × Heap σ :=
  let (copy, _, heap) := cloneWithin heap.cloneDepth [] value heap
  (copy, heap)

/-- A value fit to be stored: a scratch value is copied, any other is itself. -/
def own (heap : Heap σ) (value : Value) : Value × Heap σ :=
  if value.isScratch then heap.clone value else (value, heap)

/-- A value that is not scratch is stored as it is. -/
theorem own_of_not_isScratch {value : Value} (durable : value.isScratch = false)
    (heap : Heap σ) : heap.own value = (value, heap) := by
  simp [own, durable]

/-- Own every value of a list and retain each at once. -/
def ownAll : List Value → Heap σ → List Value × Heap σ
  | [], heap => ([], heap)
  | value :: rest, heap =>
      let (owned, heap) := heap.own value
      let (others, heap) := ownAll rest (heap.retain owned)
      (owned :: others, heap)

/-- Make an array that holds the given values. -/
def arrayOf (heap : Heap σ) (items : List Value) : Value × Heap σ :=
  let (owned, heap) := ownAll items heap
  heap.create (.array owned)

/-- Make a program.  Item 0 is the dispatcher, item 1 the auxiliary value. -/
def program (heap : Heap σ) (items : List Value) : Value × Heap σ :=
  let (owned, heap) := ownAll items heap
  heap.create (.program owned)

/-- Make a cell for a plain callable. -/
def native (heap : Heap σ) (function : Function σ) : Value × Heap σ :=
  heap.create (.exec (.plain function))

/-- Pair a closure with its auxiliary value in a program. -/
def closure (heap : Heap σ) (name : σ.Closure) (auxiliary : Value) : Value × Heap σ :=
  let (dispatcher, heap) := heap.create (.exec (.closure name))
  heap.program [dispatcher, auxiliary]

end Heap

end CountedHeap
