import CountedHeap.Coercion
import CountedHeap.Heap.Scratch
import CountedHeap.Table.Basic
import CountedHeap.Text.Pieces

/-!
Contract: reaching into nested containers by a path.

A path is a text cut at its points, or an array of parts.  A hash looks a part up as a key;
an array or a program reads it as a position.

Owns: the parts of a path, one step along it, and reading and writing at its end.  A write
creates the hashes that are missing on the way; it never writes through a value that is no
container.
-/

namespace CountedHeap.Heap

variable {σ : Signature}

/-- The parts of a path.  An empty text has none. -/
def pathParts (heap : Heap σ) (path : Value) : List String :=
  match heap.items? path with
  | some items => items.map heap.text
  | none => Text.parts "." (heap.text path)

/-- The position that a part means in a sequence. -/
def partOffset (part : String) : Int :=
  (Decimal.integerPrefix part).toInt

/-- The value one step down. -/
def childAt (heap : Heap σ) (container : Value) (part : String) : Value :=
  match heap.kind container with
  | .hash => heap.getText container part
  | .array | .program => heap.getItem container (partOffset part)
  | _ => .null

/-- Whether a container can store under a part.  A hash always can; a sequence if the
position does not lie before its first element. -/
def hasPlaceFor (heap : Heap σ) (container : Value) (part : String) : Bool :=
  match heap.kind container with
  | .hash => true
  | .array | .program =>
      decide (0 ≤ partOffset part) ||
        decide ((partOffset part).natAbs ≤ heap.size container)
  | _ => false

/-- Follow parts down from a value.  Stepping into a value that is no container is a miss. -/
def follow (heap : Heap σ) : Value → List String → Value
  | current, [] => current
  | current, part :: rest =>
      if (heap.kind current).isMulti then heap.follow (heap.childAt current part) rest
      else .null

/-- The value at a path.  The empty path leads to the root. -/
def getPath (heap : Heap σ) (root path : Value) : Value :=
  heap.follow root (heap.pathParts path)

/-- Store a value one step down.  The key of a hash is made as a scratch string, so a key
that is stored is an owned copy and one that is not leaves no cell behind. -/
def putChild (heap : Heap σ) (container : Value) (part : String) (value : Value) :
    Except Exhausted (Value × Heap σ) :=
  match heap.kind container with
  | .hash =>
      let (key, heap) := heap.scratchString part
      heap.setKey container key value
  | .array | .program => heap.setItem container value (partOffset part)
  | _ => .ok (.null, heap)

/-- Walk down from `current` and store the value under the last part, making hashes for
missing steps.  The walk ends without storing where a container has no place for the part,
and where a step leads to a present value that is no container. -/
def storeBelow : Value → List String → Value → Heap σ → Except Exhausted (Value × Heap σ)
  | _, [], _, heap => .ok (.null, heap)
  | current, part :: rest, value, heap =>
      if heap.hasPlaceFor current part then
        match rest with
        | [] => heap.putChild current part value
        | _ :: _ =>
            let next := heap.childAt current part
            let kind := heap.kind next
            if kind = .null then do
              let (next, heap) := heap.hash
              let (_, heap) ← heap.putChild current part next
              storeBelow next rest value heap
            else if kind.isMulti then storeBelow next rest value heap
            else .ok (.null, heap)
      else .ok (.null, heap)

/-- Store a value at a path and answer the value that was there before.  An empty path and a
walk that ends early store nothing. -/
def setPath (heap : Heap σ) (root path value : Value) : Except Exhausted (Value × Heap σ) :=
  heap.inScope (storeBelow root (heap.pathParts path) value)

end CountedHeap.Heap
