import CountedHeap.Heap.Basic

/-!
Contract: operations that call.

Code that runs through a call can raise a fault, and a fault leaves the heap as it was when
it was raised.  Exhaustion leaves no heap.

Owns:
- the type of such operations, and the ways to make one from an operation on heaps;
- what a caller and a host are;
- the native that a call of a value reaches, and holding values during an operation.
-/

namespace CountedHeap

/-- An operation on a heap that answers or raises a fault.  Either way there is a heap
afterwards, unless the run is exhausted. -/
abbrev Action (σ : Signature) (α : Type) : Type :=
  ExceptT Fault (StateT (Heap σ) (Except Exhausted)) α

namespace Action

variable {σ : Signature} {α : Type}

/-- Ask the heap a question. -/
def ask (question : Heap σ → α) : Action σ α :=
  fun heap => .ok (.ok (question heap), heap)

/-- An operation that always succeeds. -/
def step (operation : Heap σ → α × Heap σ) : Action σ α :=
  fun heap =>
    let (answer, heap) := operation heap
    .ok (.ok answer, heap)

/-- An operation that may need more room than there is. -/
def grow (operation : Heap σ → Except Exhausted (α × Heap σ)) : Action σ α :=
  fun heap => do
    let (answer, heap) ← operation heap
    return (.ok answer, heap)

/-- Raise a fault unless the heap answers yes. -/
def demand (condition : Heap σ → Bool) (fault : Fault) : Action σ Unit :=
  fun heap => .ok (if condition heap then .ok () else .error fault, heap)

/-- End the run. -/
def exhaust (reason : Exhausted) : Action σ α :=
  fun _ => .error reason

/-- Retain values while an operation runs, and release them on both ways out of it. -/
def holding (held : List Value) (operation : Action σ α) : Action σ α :=
  fun heap => do
    let (outcome, heap) ← operation (heap.retainAll held)
    return (outcome, heap.releaseAll held)

end Action

/-- A way to call a value with arguments. -/
abbrev Caller (σ : Signature) : Type :=
  Value → List Value → Action σ Value

/-- What the names of an embedding program do.  Each behaviour is given the caller through
which it can call values itself. -/
structure Host (σ : Signature) where
  plain : σ.Plain → Caller σ → List Value → Action σ Value
  closure : σ.Closure → Caller σ → Value → List Value → Action σ Value

namespace Heap

variable {σ : Signature}

/-- The native in an executable cell. -/
def native? (heap : Heap σ) (value : Value) : Option (Native σ) :=
  match heap.payload value with
  | .exec native => some native
  | _ => none

/-- The native that a call reaches, and the auxiliary value.  An executable cell is its own
target and has no auxiliary value; a program's target is the executable cell at item 0, and
item 1 is auxiliary.  Nothing else has a target. -/
def target? (heap : Heap σ) (callable : Value) : Option (Native σ × Value) :=
  match heap.payload callable with
  | .exec native => some (native, .null)
  | .program items =>
      (heap.native? (items[0]?.getD .null)).map fun native => (native, items[1]?.getD .null)
  | _ => none

end Heap

end CountedHeap
