import CountedHeap.Heap.Basic

/-!
Contract: deferred collection in batches.

Nothing is reclaimed until a sweep visits a cell whose count is zero.  Reclaiming a cell
releases its children by one step; a child whose count thereby drops to zero waits for its
own visit.

Owns:
- budgets, and the two tests by which a bounded sweep stops early;
- one visit, reclaiming one cell, and a whole sweep with its statistics.
-/

namespace CountedHeap

/-- How much of the slab a sweep examines. -/
inductive Budget where
  /-- The configured batch. -/
  | standard
  /-- Up to this many occupied slots. -/
  | batch (count : Nat)
  /-- Every slot once, whatever the low-water mark. -/
  | full
deriving DecidableEq, Repr

namespace Budget

/-- Budgets by number: zero is the configured batch, a negative number is a full sweep. -/
def ofInt (number : Int) : Budget :=
  if number = 0 then .standard
  else if number < 0 then .full
  else .batch number.toNat

/-- How many occupied slots may be examined, if there is a bound. -/
def limit? (config : Config) : Budget → Option Nat
  | .standard => some config.sweepBatch
  | .batch count => some count
  | .full => none

/-- The live count at which the sweep stops, if there is one. -/
def floor? (config : Config) : Budget → Option Nat
  | .standard | .batch _ => some config.lowWater
  | .full => none

end Budget

/-- What a sweep has done so far. -/
structure Progress where
  examined : Nat := 0
  freed : Nat := 0
deriving DecidableEq, Repr

/-- What a sweep did, and how many cells it left. -/
structure SweepStats where
  examined : Nat
  freed : Nat
  live : Nat
deriving DecidableEq, Repr

namespace Heap

variable {σ : Signature}

/-- Empty a slot.  Its generation moves on and never comes back, so that no handle to the old cell
resolves, and it becomes the first slot to be taken again. -/
def vacate (heap : Heap σ) (index : Nat) : Heap σ :=
  { heap with
    slots := heap.slots.modify index fun slot =>
      { generation := slot.generation + 1, cell := none }
    free := index :: heap.free
    live := heap.live - 1 }

/-- Free an occupied slot and release what its cell owned. -/
def reclaim (heap : Heap σ) (index : Nat) : Heap σ :=
  match heap.occupant? index with
  | some cell => (heap.vacate index).releaseAll cell.payload.children
  | none => heap

/-- The slot a sweep visits next.  Past the last slot the round begins again. -/
def nextVisit (heap : Heap σ) : Nat :=
  if heap.cursor < heap.slots.size then heap.cursor else 0

/-- Visit one slot: an empty one is passed over, an occupied one is examined, and reclaimed
if nobody holds its cell. -/
def visit (progress : Progress) (heap : Heap σ) : Progress × Heap σ :=
  let index := heap.nextVisit
  match heap.occupant? index with
  | none => (progress, { heap with cursor := index + 1 })
  | some cell =>
      if cell.refs = 0 then
        ({ examined := progress.examined + 1, freed := progress.freed + 1 },
          { heap.reclaim index with cursor := index + 1 })
      else
        ({ progress with examined := progress.examined + 1 },
          { heap with cursor := index + 1 })

/-- Whether a sweep ends before its next visit: the budget is used up, or the live count is
down to the floor. -/
def sweepDone (limit? floor? : Option Nat) (progress : Progress) (heap : Heap σ) : Bool :=
  limit?.any (fun limit => decide (limit ≤ progress.examined)) ||
    floor?.any (fun floor => decide (heap.live ≤ floor))

/-- Visit up to `visits` slots, testing before each visit whether the sweep is done. -/
def sweepVisits (limit? floor? : Option Nat) :
    Nat → Progress → Heap σ → Progress × Heap σ
  | 0, progress, heap => (progress, heap)
  | visits + 1, progress, heap =>
      if sweepDone limit? floor? progress heap then (progress, heap)
      else
        let (progress, heap) := visit progress heap
        sweepVisits limit? floor? visits progress heap

/-- Examine cells from where the last sweep stopped, and reclaim those that nobody holds.  No
slot is visited twice in one sweep. -/
def sweep (heap : Heap σ) (budget : Budget) : SweepStats × Heap σ :=
  let (progress, heap) :=
    sweepVisits (budget.limit? heap.config) (budget.floor? heap.config) heap.slots.size {}
      heap
  ({ examined := progress.examined, freed := progress.freed, live := heap.live },
    { heap with allocated := 0 })

/-- Whether a batch of cells was created since the last sweep and more cells are live than
the low-water mark allows. -/
def shouldSweep (heap : Heap σ) : Bool :=
  decide (heap.config.sweepBatch ≤ heap.allocated) && decide (heap.config.lowWater < heap.live)

/-- Change the size of a standard sweep. -/
def setSweepBatch (heap : Heap σ) (count : Nat) : Heap σ :=
  { heap with config := { heap.config with sweepBatch := count } }

/-- Change the live count at which bounded sweeps stop. -/
def setLowWater (heap : Heap σ) (count : Nat) : Heap σ :=
  { heap with config := { heap.config with lowWater := count } }

end Heap

end CountedHeap
