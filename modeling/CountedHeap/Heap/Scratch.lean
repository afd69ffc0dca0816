import CountedHeap.Heap.Basic

/-!
Contract: scratch values and the scopes that bound their lives.

A scope remembers the size of the pool when it opens.  When it closes, every cell above that
mark is dropped and what it held is released, on every way out of the scope.

Owns: making scratch cells, unwinding to a mark, and running an operation in a scope.
-/

namespace CountedHeap.Heap

variable {σ : Signature}

/-- Make a scratch cell.  Serial numbers have no bound and are never used twice. -/
def createScratch (heap : Heap σ) (payload : Payload σ) : Value × Heap σ :=
  (.scratch ⟨heap.scratch.size, heap.nextSerial⟩,
    { heap with
      scratch := heap.scratch.push { serial := heap.nextSerial, cell := { payload } }
      nextSerial := heap.nextSerial + 1 })

/-- Make a scratch string. -/
def scratchString (heap : Heap σ) (content : String) : Value × Heap σ :=
  heap.createScratch (.text content)

/-- Make a scratch integer. -/
def scratchInt (heap : Heap σ) (content : Int64) : Value × Heap σ :=
  heap.createScratch (.int content)

/-- Make a scratch real. -/
def scratchReal (heap : Heap σ) (content : Float) : Value × Heap σ :=
  heap.createScratch (.real content)

/-- Make an empty scratch array with room for `capacity` elements. -/
def scratchArray (heap : Heap σ) (capacity : Nat) : Except Exhausted (Value × Heap σ) := do
  reserve capacity
  return heap.createScratch (.array [])

/-- Drop the scratch cells above `mark`, all at once, then release what they held in the
order of the pool. -/
def unwind (heap : Heap σ) (mark : Nat) : Heap σ :=
  let dropped := heap.scratch.toList.drop mark
  let kept : Heap σ := { heap with scratch := heap.scratch.extract 0 mark }
  kept.releaseAll (dropped.flatMap fun slot => slot.cell.payload.children)

/-- Run an operation in a scope of its own. -/
def inScope {α : Type} (heap : Heap σ)
    (body : Heap σ → Except Exhausted (α × Heap σ)) : Except Exhausted (α × Heap σ) := do
  let (answer, after) ← body heap
  return (answer, after.unwind heap.scratch.size)

end CountedHeap.Heap
