import CountedHeap.Records.Seek
import CountedHeap.Rendering
import CountedHeap.Sequence.Basic
import CountedHeap.Text.Bucket

/-!
Contract: hashes, which map texts to values.

A key counts by its text alone.  The text selects a bucket, and within the bucket the pairs
are sorted by the text of their keys.  A table gets its buckets at the first insertion and
never more; a bucket gets its array when a pair first falls into it, and keeps it when the
last pair leaves.

Owns: finding a text, and the operations on a hash.
-/

namespace CountedHeap.Heap

variable {σ : Signature}

/-- Replace the table of a hash. -/
def setTable (heap : Heap σ) (table : Value) (content : HashTable) : Heap σ :=
  heap.modifyCell table fun cell => { cell with payload := .hash content }

/-- The bucket that a key falls into, or `none` before the first insertion. -/
def bucketIndex? (heap : Heap σ) (table key : Value) : Option Nat :=
  match heap.table? table with
  | none => none
  | some content =>
      if content.buckets.isEmpty then none
      else some (Text.bucketOf (heap.text key) content.buckets.length)

/-- Search a bucket for the pair whose key has the given text. -/
def seekKey (heap : Heap σ) (items : List Value) (text : String) : Seek :=
  Records.seek items 2 fun key => Ord.compare (heap.text key) text

/-- The bucket array and the position in it of the pair whose key has the given text. -/
def locate? (heap : Heap σ) (table : Value) (text : String) : Option (Value × Nat) :=
  match heap.table? table with
  | none => none
  | some content =>
      match content.buckets[Text.bucketOf text content.buckets.length]? with
      | none => none
      | some bucket =>
          match heap.items? bucket with
          | none => none
          | some items =>
              match heap.seekKey items text with
              | .found index => some (bucket, index)
              | .missing _ => none

/-- The value stored under a text. -/
def getText (heap : Heap σ) (table : Value) (text : String) : Value :=
  match heap.locate? table text with
  | some (bucket, index) => heap.getItem bucket (index + 1 : Nat)
  | none => .null

/-- The value stored under a key. -/
def getKey (heap : Heap σ) (table key : Value) : Value :=
  heap.getText table (heap.text key)

/-- Whether a value is stored under a key, be it the absent value. -/
def hasKey (heap : Heap σ) (table key : Value) : Bool :=
  (heap.locate? table (heap.text key)).isSome

/-- How many pairs a hash has. -/
def pairCount (heap : Heap σ) (table : Value) : Nat :=
  match heap.table? table with
  | some content => content.pairs
  | none => 0

/-- The buckets of a table, which are allocated now if there are none yet.  There is always
at least one. -/
def allocatedBuckets (heap : Heap σ) (content : HashTable) :
    Except Exhausted (List Value) :=
  if content.buckets.isEmpty then padTo (max heap.config.hashBuckets 1) []
  else .ok content.buckets

/-- The array of a bucket, which is made and retained now if there is none yet. -/
def bucketArray (heap : Heap σ) (table : Value) (content : HashTable) (slot : Nat) :
    Value × Heap σ :=
  let bucket := content.buckets[slot]?.getD .null
  match heap.items? bucket with
  | some _ => (bucket, heap)
  | none =>
      let (bucket, heap) := heap.create (.array [])
      (bucket,
        (heap.retain bucket).setTable table
          { content with buckets := content.buckets.set slot bucket })

/-- One more pair in a table. -/
def countPair (heap : Heap σ) (table : Value) : Heap σ :=
  match heap.table? table with
  | some content => heap.setTable table { content with pairs := content.pairs + 1 }
  | none => heap

/-- One pair less in a table. -/
def uncountPair (heap : Heap σ) (table : Value) : Heap σ :=
  match heap.table? table with
  | some content => heap.setTable table { content with pairs := content.pairs - 1 }
  | none => heap

/-- Store a value under a key and answer the value that was stored there before.

A text that is present keeps its key and gets a new value.  A new text opens two places at
its sorted position. -/
def setKey (heap : Heap σ) (table key value : Value) : Except Exhausted (Value × Heap σ) :=
  let text := heap.text key
  match heap.table? table with
  | none => .ok (.null, heap)
  | some content => do
      let buckets ← heap.allocatedBuckets content
      let content := { content with buckets }
      let heap := heap.setTable table content
      let (bucket, heap) :=
        heap.bucketArray table content (Text.bucketOf text buckets.length)
      match heap.items? bucket with
      | none => return (.null, heap)
      | some items =>
          match heap.seekKey items text with
          | .found index => heap.setItem bucket value (index + 1 : Nat)
          | .missing index => do
              let (_, heap) ← heap.expandItems bucket index 2
              let (_, heap) ← heap.setItem bucket key index
              (heap.countPair table).setItem bucket value (index + 1 : Nat)

/-- Overwrite an element that exists with the absent value and release it.  Answers the
element. -/
def clearItem (heap : Heap σ) (sequence : Value) (index : Nat) : Value × Heap σ :=
  match heap.items? sequence with
  | none => (.null, heap)
  | some items => heap.replaceItem sequence items index .null

/-- Remove the pair of a key.  Answers the value after it was released. -/
def eraseKey (heap : Heap σ) (table key : Value) : Value × Heap σ :=
  match heap.locate? table (heap.text key) with
  | none => (.null, heap)
  | some (bucket, index) =>
      let (_, heap) := heap.clearItem bucket index
      let (removed, heap) := heap.clearItem bucket (index + 1)
      let (_, heap) := heap.collapseItems bucket index 2
      (removed, heap.uncountPair table)

/-- Remove the pair of a key, unless the table counts no pair although it has this one. -/
def removeKey (heap : Heap σ) (table key : Value) : Except Exhausted (Value × Heap σ) :=
  if heap.hasKey table key && heap.pairCount table == 0 then .error .pairCount
  else .ok (heap.eraseKey table key)

/-- A new array of all keys, in the order of a walk. -/
def keys (heap : Heap σ) (table : Value) : Value × Heap σ :=
  heap.arrayOf ((heap.pairs table).map (·.1))

/-- A new array of all values, in the order of a walk. -/
def values (heap : Heap σ) (table : Value) : Value × Heap σ :=
  heap.arrayOf ((heap.pairs table).map (·.2))

end CountedHeap.Heap
