import CountedHeap.Cell
import CountedHeap.Storage

/-!
Contract: the heap, resolution of handles, and the reference counts.

Long-lived cells live in the slots of a slab.  A slot is occupied or free; a free slot is on
the free list and is taken again before the slab grows, most recently freed first.  Scratch
cells live in a pool that only grows until a scope is unwound.

Owns:
- the state of a heap and of its slots;
- resolution: `cell?` answers a handle's cell, and a stale handle has none;
- creation of long-lived cells, `retain` and `release`;
- the questions about one value that need no text.

Does not own: reclaiming cells, scopes, copying.

Counters are numbers without bound: reference counts, the generations of slots, and the serial
numbers of scratch cells.  In words of 32 bits a count would stay at the largest word, and a
generation or a serial number would begin again; `Proofs.Counters` compares the two.  Nor is there
a bound on the slots and on the places of the pool.  A program that numbers its slots by words ends
when it runs out of numbers, and here a new slot can always be made.
-/

namespace CountedHeap

/-- How a heap is tuned. -/
structure Config where
  /-- Cells that a sweep of standard size examines. -/
  sweepBatch : Nat := 1024
  /-- Bounded sweeps stop once this many cells or fewer are live. -/
  lowWater : Nat := 256
  /-- Buckets of a hash, allocated at its first insertion. -/
  hashBuckets : Nat := 31
  /-- Slots for which room is made at the start. -/
  initialSlots : Nat := 1024
deriving DecidableEq, Repr

/-- A place of the slab.  `generation` counts how often it was reclaimed, without bound. -/
structure Slot (σ : Signature) where
  generation : Nat := 0
  cell : Option (Cell σ)

/-- A place of the scratch pool.  `serial` numbers the allocation that filled it, without
bound. -/
structure ScratchSlot (σ : Signature) where
  serial : Nat
  cell : Cell σ

/-- A heap of counted values. -/
structure Heap (σ : Signature) where
  config : Config := {}
  /-- The slab of long-lived cells. -/
  slots : Array (Slot σ) := #[]
  /-- The free slots, most recently freed first. -/
  free : List Nat := []
  /-- How many slots are occupied. -/
  live : Nat := 0
  /-- The slot at which the next sweep begins. -/
  cursor : Nat := 0
  /-- Cells created since the last sweep. -/
  allocated : Nat := 0
  /-- The pool of scratch cells. -/
  scratch : Array (ScratchSlot σ) := #[]
  /-- The serial number of the next scratch cell. -/
  nextSerial : Nat := 0

namespace Heap

variable {σ : Signature}

/-- A heap without cells. -/
def new (config : Config) : Heap σ :=
  { config }

/-! ## Resolution -/

/-- The cell in a slot, if the slot is occupied. -/
def occupant? (heap : Heap σ) (index : Nat) : Option (Cell σ) :=
  heap.slots[index]?.bind (·.cell)

/-- The cell a handle names.  A handle whose slot has moved on to another generation, or
whose scratch place was unwound, names nothing. -/
def cell? (heap : Heap σ) : Value → Option (Cell σ)
  | .null => none
  | .cell id =>
      match heap.slots[id.index]? with
      | some slot => if slot.generation = id.generation then slot.cell else none
      | none => none
  | .scratch id =>
      match heap.scratch[id.index]? with
      | some slot => if slot.serial = id.serial then some slot.cell else none
      | none => none

/-- Change the cell a handle names.  A stale handle changes nothing. -/
def modifyCell (heap : Heap σ) (value : Value) (change : Cell σ → Cell σ) : Heap σ :=
  match value with
  | .null => heap
  | .cell id =>
      { heap with
        slots := heap.slots.modify id.index fun slot =>
          if slot.generation = id.generation then { slot with cell := slot.cell.map change }
          else slot }
  | .scratch id =>
      { heap with
        scratch := heap.scratch.modify id.index fun slot =>
          if slot.serial = id.serial then { slot with cell := change slot.cell } else slot }

@[simp] theorem cell?_null (heap : Heap σ) : heap.cell? .null = none := rfl

/-- A change is seen through the changed handle and through no other. -/
theorem cell?_modifyCell (heap : Heap σ) (value other : Value) (change : Cell σ → Cell σ) :
    (heap.modifyCell value change).cell? other =
      if other = value then (heap.cell? other).map change else heap.cell? other := by
  cases value with
  | null =>
      cases other <;> simp [modifyCell, cell?]
  | cell id =>
      cases other with
      | null => simp [cell?]
      | scratch otherId => simp [modifyCell, cell?]
      | cell otherId =>
          simp only [modifyCell, cell?, Array.getElem?_modify, Value.cell.injEq]
          by_cases sameIndex : id.index = otherId.index
          · rw [if_pos sameIndex]
            cases heap.slots[otherId.index]? with
            | none => simp
            | some slot =>
                simp only [Option.map_some]
                by_cases sameGeneration : id.generation = otherId.generation
                · have same : otherId = id := by
                    cases id; cases otherId; simp_all
                  subst same
                  by_cases current : slot.generation = otherId.generation <;> simp [current]
                · have different : otherId ≠ id := fun equal => sameGeneration (by rw [equal])
                  rw [if_neg different]
                  by_cases current : slot.generation = id.generation
                  · rw [if_pos current]
                    have stale : slot.generation ≠ otherId.generation :=
                      fun equal => sameGeneration (current ▸ equal)
                    simp [stale]
                  · rw [if_neg current]
          · rw [if_neg sameIndex]
            have different : otherId ≠ id := fun equal => sameIndex (by rw [equal])
            rw [if_neg different]
  | scratch id =>
      cases other with
      | null => simp [cell?]
      | cell otherId => simp [modifyCell, cell?]
      | scratch otherId =>
          simp only [modifyCell, cell?, Array.getElem?_modify, Value.scratch.injEq]
          by_cases sameIndex : id.index = otherId.index
          · rw [if_pos sameIndex]
            cases heap.scratch[otherId.index]? with
            | none => simp
            | some slot =>
                simp only [Option.map_some]
                by_cases sameSerial : id.serial = otherId.serial
                · have same : otherId = id := by
                    cases id; cases otherId; simp_all
                  subst same
                  by_cases current : slot.serial = otherId.serial <;> simp [current]
                · have different : otherId ≠ id := fun equal => sameSerial (by rw [equal])
                  rw [if_neg different]
                  by_cases current : slot.serial = id.serial
                  · rw [if_pos current]
                    have stale : slot.serial ≠ otherId.serial :=
                      fun equal => sameSerial (current ▸ equal)
                    simp [stale]
                  · rw [if_neg current]
          · rw [if_neg sameIndex]
            have different : otherId ≠ id := fun equal => sameIndex (by rw [equal])
            rw [if_neg different]

/-- The payload of a value.  An absent or stale handle reads as the absent payload. -/
def payload (heap : Heap σ) (value : Value) : Payload σ :=
  match heap.cell? value with
  | some cell => cell.payload
  | none => .null

/-- Replace the references that a value owns. -/
def setChildren (heap : Heap σ) (value : Value) (children : List Value) : Heap σ :=
  heap.modifyCell value fun cell =>
    { cell with payload := cell.payload.withChildren children }

/-! ## Questions about one value -/

/-- Whether a handle still names a cell. -/
def isLive (heap : Heap σ) (value : Value) : Bool :=
  (heap.cell? value).isSome

/-- The reference count of a value, zero if the handle is stale. -/
def refs (heap : Heap σ) (value : Value) : Nat :=
  match heap.cell? value with
  | some cell => cell.refs
  | none => 0

/-- The kind of a value.  An absent or stale handle is of the absent kind. -/
def kind (heap : Heap σ) (value : Value) : Kind :=
  (heap.payload value).kind

/-- The references a value owns. -/
def children (heap : Heap σ) (value : Value) : List Value :=
  (heap.payload value).children

/-- The items of an array or a program. -/
def items? (heap : Heap σ) (value : Value) : Option (List Value) :=
  (heap.payload value).items?

/-- The table of a hash. -/
def table? (heap : Heap σ) (value : Value) : Option HashTable :=
  (heap.payload value).table?

/-- The content of a string. -/
def string? (heap : Heap σ) (value : Value) : Option String :=
  match heap.payload value with
  | .text content => some content
  | _ => none

/-- Elements of a sequence, pairs of a hash, bytes of a string, and zero for all else. -/
def size (heap : Heap σ) (value : Value) : Nat :=
  match heap.payload value with
  | .text content => content.utf8ByteSize
  | .array items | .program items => items.length
  | .hash table => table.pairs
  | _ => 0

/-- Whether a value can be called. -/
def isExecutable (heap : Heap σ) (value : Value) : Bool :=
  (heap.kind value).isExecutable

/-! ## The whole heap -/

/-- How many slots are free. -/
def freeSlots (heap : Heap σ) : Nat :=
  heap.free.length

/-- How many scratch cells there are. -/
def scratchSize (heap : Heap σ) : Nat :=
  heap.scratch.size

/-- Every handle that names a long-lived cell. -/
def cellHandles (heap : Heap σ) : List Value :=
  (List.range heap.slots.size).filterMap fun index =>
    match heap.slots[index]? with
    | some slot => slot.cell.map fun _ => .cell ⟨index, slot.generation⟩
    | none => none

/-- Every handle that names a scratch cell. -/
def scratchHandles (heap : Heap σ) : List Value :=
  (List.range heap.scratch.size).filterMap fun index =>
    heap.scratch[index]?.map fun slot => .scratch ⟨index, slot.serial⟩

/-- Every handle that names a cell. -/
def handles (heap : Heap σ) : List Value :=
  heap.cellHandles ++ heap.scratchHandles

private theorem mem_cellHandles {heap : Heap σ} {id : CellId} {cell : Cell σ}
    (found : heap.cell? (.cell id) = some cell) : .cell id ∈ heap.cellHandles := by
  simp only [cell?] at found
  cases slotEqual : heap.slots[id.index]? with
  | none => simp [slotEqual] at found
  | some slot =>
      simp only [slotEqual] at found
      split at found
      next current =>
        have inside := (Array.getElem?_eq_some_iff.mp slotEqual).1
        rw [cellHandles, List.mem_filterMap]
        exact ⟨id.index, List.mem_range.mpr inside, by simp [slotEqual, found, current]⟩
      next => simp at found

private theorem mem_scratchHandles {heap : Heap σ} {id : ScratchId} {cell : Cell σ}
    (found : heap.cell? (.scratch id) = some cell) : .scratch id ∈ heap.scratchHandles := by
  simp only [cell?] at found
  cases slotEqual : heap.scratch[id.index]? with
  | none => simp [slotEqual] at found
  | some slot =>
      simp only [slotEqual] at found
      split at found
      next current =>
        have inside := (Array.getElem?_eq_some_iff.mp slotEqual).1
        rw [scratchHandles, List.mem_filterMap]
        exact ⟨id.index, List.mem_range.mpr inside, by simp [slotEqual, current]⟩
      next => simp at found

/-- A handle that names a cell is among the handles of the heap. -/
theorem mem_handles {heap : Heap σ} {value : Value} {cell : Cell σ}
    (found : heap.cell? value = some cell) : value ∈ heap.handles := by
  cases value with
  | null => simp at found
  | cell id => exact List.mem_append_left _ (mem_cellHandles found)
  | scratch id => exact List.mem_append_right _ (mem_scratchHandles found)

/-! ## Creation -/

/-- Make a long-lived cell with reference count zero.  What the payload refers to is not retained:
the operations that make containers of given values retain them before. -/
def create (heap : Heap σ) (payload : Payload σ) : Value × Heap σ :=
  match heap.free with
  | index :: free =>
      let generation := match heap.slots[index]? with
        | some slot => slot.generation
        | none => 0
      (.cell ⟨index, generation⟩,
        { heap with
          slots := heap.slots.modify index fun slot => { slot with cell := some { payload } }
          free
          live := heap.live + 1
          allocated := heap.allocated + 1 })
  | [] =>
      (.cell ⟨heap.slots.size, 0⟩,
        { heap with
          slots := heap.slots.push { cell := some { payload } }
          live := heap.live + 1
          allocated := heap.allocated + 1 })

/-- Make a string. -/
def string (heap : Heap σ) (content : String) : Value × Heap σ :=
  heap.create (.text content)

/-- Make an integer. -/
def int (heap : Heap σ) (content : Int64) : Value × Heap σ :=
  heap.create (.int content)

/-- Make a real. -/
def real (heap : Heap σ) (content : Float) : Value × Heap σ :=
  heap.create (.real content)

/-- Make a cell that holds nothing. -/
def nullCell (heap : Heap σ) : Value × Heap σ :=
  heap.create .null

/-- Make an empty hash. -/
def hash (heap : Heap σ) : Value × Heap σ :=
  heap.create (.hash {})

/-- Make a file by its path. -/
def file (heap : Heap σ) (path : String) : Value × Heap σ :=
  heap.create (.file path)

/-- Make an empty array with room for `capacity` elements. -/
def array (heap : Heap σ) (capacity : Nat) : Except Exhausted (Value × Heap σ) := do
  reserve capacity
  return heap.create (.array [])

/-! ## Reference counts -/

/-- One more holder of a value.  A stale handle is not counted.  There is no largest count. -/
def retain (heap : Heap σ) (value : Value) : Heap σ :=
  heap.modifyCell value fun cell => { cell with refs := cell.refs + 1 }

/-- One holder less.  A count that is zero stays zero. -/
def release (heap : Heap σ) (value : Value) : Heap σ :=
  heap.modifyCell value fun cell => { cell with refs := cell.refs - 1 }

/-- Retain every value of a list, once per occurrence. -/
def retainAll (heap : Heap σ) (values : List Value) : Heap σ :=
  values.foldl retain heap

/-- Release every value of a list, once per occurrence. -/
def releaseAll (heap : Heap σ) (values : List Value) : Heap σ :=
  values.foldl release heap

@[simp] theorem payload_retain (heap : Heap σ) (value other : Value) :
    (heap.retain value).payload other = heap.payload other := by
  simp only [payload, retain, cell?_modifyCell]
  by_cases same : other = value
  · rw [if_pos same]
    cases heap.cell? other <;> rfl
  · rw [if_neg same]

@[simp] theorem payload_release (heap : Heap σ) (value other : Value) :
    (heap.release value).payload other = heap.payload other := by
  simp only [payload, release, cell?_modifyCell]
  by_cases same : other = value
  · rw [if_pos same]
    cases heap.cell? other <;> rfl
  · rw [if_neg same]

theorem refs_retain (heap : Heap σ) (value other : Value) :
    (heap.retain value).refs other =
      heap.refs other + if other = value ∧ heap.isLive value then 1 else 0 := by
  simp only [refs, retain, isLive, cell?_modifyCell]
  by_cases same : other = value
  · subst same
    rw [if_pos rfl]
    rcases Option.eq_none_or_eq_some (heap.cell? other) with found | ⟨cell, found⟩ <;>
      simp [found]
  · simp [same]

theorem refs_release (heap : Heap σ) (value other : Value) :
    (heap.release value).refs other =
      heap.refs other - if other = value then 1 else 0 := by
  simp only [refs, release, cell?_modifyCell]
  by_cases same : other = value
  · subst same
    rw [if_pos rfl]
    rcases Option.eq_none_or_eq_some (heap.cell? other) with found | ⟨cell, found⟩ <;>
      simp [found]
  · simp [same]

end Heap

end CountedHeap
