import CountedHeap.Decimal.Layout
import CountedHeap.Table.Walk

/-!
Contract: the text of a value.

Owns: the text of every kind, and the abbreviation of a container that occurs inside its own
text.

Shared containers are written out at every occurrence.  Only an occurrence within its own
text is abbreviated, so the text of every value is finite.
-/

namespace CountedHeap.Heap

variable {σ : Signature}

/-- How many live handles are not among `enclosing`. -/
def unentered (heap : Heap σ) (enclosing : List Value) : Nat :=
  (heap.handles.filter fun value => decide (value ∉ enclosing)).length

/-- Entering one more live value leaves fewer to enter. -/
theorem unentered_cons_lt {heap : Heap σ} {enclosing : List Value} {value : Value}
    {cell : Cell σ} (found : heap.cell? value = some cell) (outside : value ∉ enclosing) :
    heap.unentered (value :: enclosing) < heap.unentered enclosing := by
  have split : (heap.handles.filter fun other => decide (other ∉ value :: enclosing)) =
      (heap.handles.filter fun other => decide (other ∉ enclosing)).filter
        fun other => decide (other ≠ value) := by
    rw [List.filter_filter]
    congr 1
    funext other
    simp
  rw [unentered, unentered, split]
  exact List.length_filter_lt_length_iff_exists.mpr
    ⟨value, by simp [mem_handles found, outside], by simp⟩

private theorem cell?_of_payload_array {heap : Heap σ} {value : Value} {items : List Value}
    (content : heap.payload value = .array items) : ∃ cell, heap.cell? value = some cell := by
  unfold payload at content
  split at content
  next cell found => exact ⟨cell, found⟩
  next => simp at content

private theorem cell?_of_payload_hash {heap : Heap σ} {value : Value} {table : HashTable}
    (content : heap.payload value = .hash table) : ∃ cell, heap.cell? value = some cell := by
  unfold payload at content
  split at content
  next cell found => exact ⟨cell, found⟩
  next => simp at content

/-- The text of a value that occurs within the text of every container in `enclosing`. -/
def textWithin (heap : Heap σ) (enclosing : List Value) (value : Value) : String :=
  match _content : heap.payload value with
  | .null => ""
  | .text characters => characters
  | .int number => Decimal.integerText number.toInt
  | .real number => Decimal.realText number
  | .array items =>
      if _inside : value ∈ enclosing then "[...]"
      else
        "[" ++ ",".intercalate
          (items.map fun item => heap.textWithin (value :: enclosing) item) ++ "]"
  | .hash _ =>
      if _inside : value ∈ enclosing then "\x7b...\x7d"
      else
        "\x7b" ++ ",".intercalate
          ((heap.pairs value).map fun pair =>
            heap.textWithin (value :: enclosing) pair.1 ++ ":" ++
              heap.textWithin (value :: enclosing) pair.2) ++ "\x7d"
  | .exec _ => "<exec>"
  | .file path => "<file " ++ path ++ ">"
  | .program _ => "<program>"
termination_by heap.unentered enclosing
decreasing_by
  · obtain ⟨_, found⟩ := cell?_of_payload_array _content
    exact unentered_cons_lt found _inside
  · obtain ⟨_, found⟩ := cell?_of_payload_hash _content
    exact unentered_cons_lt found _inside
  · obtain ⟨_, found⟩ := cell?_of_payload_hash _content
    exact unentered_cons_lt found _inside

/-- The text of a value.  An absent value has the empty text. -/
def text (heap : Heap σ) (value : Value) : String :=
  heap.textWithin [] value

/-- A string is its own text. -/
theorem text_of_payload_text {heap : Heap σ} {value : Value} {characters : String}
    (content : heap.payload value = .text characters) : heap.text value = characters := by
  unfold text textWithin
  split <;> simp_all

end CountedHeap.Heap
