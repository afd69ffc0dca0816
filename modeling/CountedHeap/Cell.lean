import CountedHeap.Kind
import CountedHeap.Native
import CountedHeap.Value

/-!
Contract: cells and their payloads.

Owns:
- the payload of each kind, and the table of buckets behind a hash;
- the references a payload holds, and replacing them.

Does not own: any reference count but the one a cell carries.  Who holds a reference to a
cell is known to the heap as a whole.

A reference count is a number without bound.  In a word of 32 bits it would stay at the largest
word once it got there, and be too low after the next release; `Proofs.Counters` has that.
-/

namespace CountedHeap

/-- The table behind a hash.

`buckets` is empty before the first insertion and never changes its length afterwards.  A
bucket is absent, or an array in which keys and values alternate, keys ascending by their
text.  `pairs` counts the pairs of all buckets. -/
structure HashTable where
  buckets : List Value := []
  pairs : Nat := 0
deriving DecidableEq, Repr

/-- What a cell holds. -/
inductive Payload (σ : Signature) where
  | null
  | text (content : String)
  | int (content : Int64)
  | real (content : Float)
  | array (items : List Value)
  | hash (table : HashTable)
  | exec (native : Native σ)
  | file (path : String)
  | program (items : List Value)

namespace Payload

variable {σ : Signature}

/-- The kind of a payload. -/
def kind : Payload σ → Kind
  | .null => .null
  | .text _ => .text
  | .int _ => .int
  | .real _ => .real
  | .array _ => .array
  | .hash _ => .hash
  | .exec _ => .exec
  | .file _ => .file
  | .program _ => .program

/-- The references a payload owns: the items of a sequence, the buckets of a hash. -/
def children : Payload σ → List Value
  | .array items | .program items => items
  | .hash table => table.buckets
  | _ => []

/-- The same payload with other references.  A payload that owns none is unchanged. -/
def withChildren (children : List Value) : Payload σ → Payload σ
  | .array _ => .array children
  | .program _ => .program children
  | .hash table => .hash { table with buckets := children }
  | other => other

/-- The items of an array or a program. -/
def items? : Payload σ → Option (List Value)
  | .array items | .program items => some items
  | _ => none

/-- The table of a hash. -/
def table? : Payload σ → Option HashTable
  | .hash table => some table
  | _ => none

@[simp] theorem kind_withChildren (children : List Value) (payload : Payload σ) :
    (payload.withChildren children).kind = payload.kind := by
  cases payload <;> rfl

@[simp] theorem children_withChildren_of_isMulti {payload : Payload σ}
    (container : payload.kind.isMulti = true) (children : List Value) :
    (payload.withChildren children).children = children := by
  cases payload <;> simp_all [kind, Kind.isMulti, withChildren, Payload.children]

@[simp] theorem withChildren_children (payload : Payload σ) :
    payload.withChildren payload.children = payload := by
  cases payload <;> rfl

end Payload

/-- A payload and the number of holders that retain it, which has no bound. -/
structure Cell (σ : Signature) where
  refs : Nat := 0
  payload : Payload σ

end CountedHeap
