/-!
Contract: handles, the only way a program refers to the contents of a counted heap.

Owns:
- the identifiers of long-lived cells and of scratch cells;
- the three forms of a handle and the total order by identity.

Does not own: what a handle resolves to.  Resolution is a question to a heap, and a
handle that outlived its cell is still a value of this type.
-/

namespace CountedHeap

/-- Names a long-lived cell: a slot of the slab, and the generation the slot had when the
cell was made.  A slot that was reclaimed has a later generation, so an old identifier
never names the slot's next occupant. -/
structure CellId where
  index : Nat
  generation : Nat
deriving DecidableEq, Repr

/-- Names a scratch cell: a place in the pool, and the serial number of the allocation. -/
structure ScratchId where
  index : Nat
  serial : Nat
deriving DecidableEq, Repr

/-- A handle.  `null` is the absent value that every lookup answers on a miss. -/
inductive Value where
  | null
  | cell (id : CellId)
  | scratch (id : ScratchId)
deriving DecidableEq, Repr, Inhabited

namespace Value

/-- Whether the handle is the absent value. -/
def isNull : Value → Bool
  | .null => true
  | _ => false

/-- Whether the handle names a long-lived cell. -/
def isCell : Value → Bool
  | .cell _ => true
  | _ => false

/-- Whether the handle names a scratch cell. -/
def isScratch : Value → Bool
  | .scratch _ => true
  | _ => false

/-- The identifier behind a long-lived handle. -/
def cellId? : Value → Option CellId
  | .cell id => some id
  | _ => none

/-- The key that orders handles by identity: absent, then long-lived, then scratch, each
kind by place and then by age. -/
def identity : Value → Nat × Nat × Nat
  | .null => (0, 0, 0)
  | .cell id => (1, id.index, id.generation)
  | .scratch id => (2, id.index, id.serial)

/-- Order by identity. -/
def compareIdentity (left right : Value) : Ordering :=
  let (form, place, age) := left.identity
  let (form', place', age') := right.identity
  (compare form form').then ((compare place place').then (compare age age'))

end Value

end CountedHeap
