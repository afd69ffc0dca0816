import CountedHeap.Heap.Basic

/-!
Contract: walking the pairs of a hash.

Pairs come in the order of the buckets, and within a bucket in the order of storage.

Owns: the list of all pairs, and the walk that can be resumed after every pair.
-/

namespace CountedHeap

/-- A place in a walk: a bucket, and how many of its pairs were passed. -/
structure TableCursor where
  bucket : Nat := 0
  pair : Nat := 0
deriving DecidableEq, Repr

/-- The pairs of a list in which keys and values alternate.  A key without a value is no
pair. -/
def pairUp : List Value → List (Value × Value)
  | key :: value :: rest => (key, value) :: pairUp rest
  | _ => []

theorem length_pairUp : (items : List Value) → (pairUp items).length = items.length / 2
  | [] => rfl
  | [_] => by simp [pairUp]
  | _ :: _ :: rest => by
      simp only [pairUp, List.length_cons, length_pairUp rest]
      omega

namespace Heap

variable {σ : Signature}

/-- The pairs in one bucket.  An absent bucket has none. -/
def bucketPairs (heap : Heap σ) (bucket : Value) : List (Value × Value) :=
  match heap.items? bucket with
  | some items => pairUp items
  | none => []

/-- All pairs of a hash, in the order of a walk.  A value that is no hash has none. -/
def pairs (heap : Heap σ) (table : Value) : List (Value × Value) :=
  match heap.table? table with
  | some content => content.buckets.flatMap heap.bucketPairs
  | none => []

/-- The next pair in the given buckets, which are those from the cursor's on. -/
def nextPairIn (heap : Heap σ) :
    List Value → TableCursor → Option (Value × Value) × TableCursor
  | [], cursor => (none, cursor)
  | bucket :: rest, cursor =>
      match (heap.bucketPairs bucket)[cursor.pair]? with
      | some pair => (some pair, { cursor with pair := cursor.pair + 1 })
      | none => nextPairIn heap rest { bucket := cursor.bucket + 1, pair := 0 }

/-- The pair at a place in a walk, and the place after it.  A walk over a value that is no
hash does not move. -/
def nextPair (heap : Heap σ) (table : Value) (cursor : TableCursor) :
    Option (Value × Value) × TableCursor :=
  match heap.table? table with
  | some content => heap.nextPairIn (content.buckets.drop cursor.bucket) cursor
  | none => (none, cursor)

end Heap

end CountedHeap
