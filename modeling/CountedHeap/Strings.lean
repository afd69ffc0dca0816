import CountedHeap.Rendering
import CountedHeap.Sequence.Basic
import CountedHeap.Text.Bytes
import CountedHeap.Text.Pieces

/-!
Contract: strings as values: cutting, joining, replacing a range.

Arguments count by their text, whatever their kind.

Owns: `split`, `join` and `splice`.
-/

namespace CountedHeap.Heap

variable {σ : Signature}

/-- Make strings and push them onto an array, one after another. -/
def pushStrings (array : Value) : List String → Heap σ → Except Exhausted (Heap σ)
  | [], heap => .ok heap
  | content :: rest, heap => do
      let (element, heap) := heap.string content
      let (_, heap) ← heap.pushItem array element
      pushStrings array rest heap

/-- A new array of the parts of a text between the occurrences of a separator.  An empty
separator cuts between all characters; an empty text has no parts. -/
def split (heap : Heap σ) (separator text : Value) : Except Exhausted (Value × Heap σ) := do
  let parts := Text.parts (heap.text separator) (heap.text text)
  let (array, heap) ← heap.array parts.length
  let heap ← pushStrings array parts heap
  return (array, heap)

/-- A new string of the texts of all items with the separator between them.  A value without
items gives its own text. -/
def join (heap : Heap σ) (separator sequence : Value) : Value × Heap σ :=
  match heap.items? sequence with
  | some items => heap.string ((heap.text separator).intercalate (items.map heap.text))
  | none => heap.string (heap.text sequence)

/-- The byte range that an offset and a length mean in a text of `size` bytes.  A negative
offset counts from the end, and both ends are moved into the text. -/
def byteRange (size : Nat) (offset length : Int) : Nat × Nat :=
  let start : Int := if offset < 0 then size + offset else offset
  let first := (max 0 (min start size)).toNat
  let extent := (max 0 (min length (size - first))).toNat
  (first, first + extent)

theorem byteRange_ordered (size : Nat) (offset length : Int) :
    (byteRange size offset length).1 ≤ (byteRange size offset length).2 := by
  simp only [byteRange]
  omega

/-- Replace a range of bytes of a text, widened to whole characters.  Answers the new text
and what was removed, both as new strings; the removed one is made first. -/
def splice (heap : Heap σ) (text inserted : Value) (offset length : Int) :
    (Value × Value) × Heap σ :=
  let characters := heap.text text
  let (first, last) := byteRange characters.utf8ByteSize offset length
  let (front, middle, back) := Text.cutAt first last characters.toList
  let content := String.ofList front ++ heap.text inserted ++ String.ofList back
  let (removed, heap) := heap.string (String.ofList middle)
  let (spliced, heap) := heap.string content
  ((spliced, removed), heap)

end CountedHeap.Heap
