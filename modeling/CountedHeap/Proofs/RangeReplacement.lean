import CountedHeap.Proofs.GuardedText
import CountedHeap.Proofs.Runs

/-!
Contract: replacing a range of bytes of a text, and undoing it.

An offset and a length mean a range of bytes of the text, whatever they are.  The range is widened
to whole characters: down to the boundary before it and up to the one behind it.  What is in it is
cut out and other text is put in its place.  Putting back what was cut out, over as many bytes as
were put in, gives the text again.

Owns:
- the longest front of a text before a byte offset and the shortest front beyond it, by what they
  are and not by how they are found;
- the range that an offset and a length mean;
- what replacing a range answers, and that it is undone by replacing once more.
-/

namespace CountedHeap

namespace Text

/-! ## Fronts -/

/-- A front of a text that ends at a byte offset or before it, and none that does is longer. -/
structure LongestFront (text : String) (offset : Nat) (front : String) : Prop where
  isFront : ∃ rest, text = front ++ rest
  within : front.utf8ByteSize ≤ offset
  longest : ∀ other rest, text = other ++ rest → other.utf8ByteSize ≤ offset →
    other.utf8ByteSize ≤ front.utf8ByteSize

/-- A front of a text that ends at a byte offset or behind it, and none that does is shorter. -/
structure ShortestFront (text : String) (offset : Nat) (front : String) : Prop where
  isFront : ∃ rest, text = front ++ rest
  beyond : offset ≤ front.utf8ByteSize
  shortest : ∀ other rest, text = other ++ rest → offset ≤ other.utf8ByteSize →
    front.utf8ByteSize ≤ other.utf8ByteSize

theorem byteLength_le_takeWithin {limit : Nat} {front : List Char} (rest : List Char)
    (fits : byteLength front ≤ limit) :
    byteLength front ≤ byteLength (takeWithin limit (front ++ rest)) := by
  induction front generalizing limit with
  | nil => exact Nat.zero_le _
  | cons head front inductionHypothesis =>
      rw [byteLength] at fits
      have remaining : byteLength front ≤ limit - head.utf8Size := by omega
      rw [List.cons_append, takeWithin, if_pos (by omega), byteLength, byteLength]
      exact Nat.add_le_add_left (inductionHypothesis remaining) _

theorem takeCovering_le_byteLength {extent : Nat} {front : List Char} (rest : List Char)
    (covers : extent ≤ byteLength front) :
    byteLength (takeCovering extent (front ++ rest)) ≤ byteLength front := by
  induction front generalizing extent with
  | nil =>
      obtain rfl := Nat.le_zero.mp covers
      cases rest with
      | nil => exact le_rfl
      | cons head rest => rw [List.nil_append, takeCovering, if_pos rfl]
  | cons head front inductionHypothesis =>
      rw [byteLength] at covers
      rw [List.cons_append, takeCovering]
      split
      next => exact Nat.zero_le _
      next =>
        have remaining : extent - head.utf8Size ≤ byteLength front := by omega
        rw [byteLength, byteLength]
        exact Nat.add_le_add_left (inductionHypothesis remaining) _

theorem le_byteLength_takeCovering {extent : Nat} {text : List Char}
    (reaches : extent ≤ byteLength text) : extent ≤ byteLength (takeCovering extent text) := by
  induction text generalizing extent with
  | nil => exact reaches
  | cons head rest inductionHypothesis =>
      rw [takeCovering]
      split
      next nothing => exact nothing.trans_le (Nat.zero_le _)
      next =>
        rw [byteLength] at reaches ⊢
        have remaining : extent - head.utf8Size ≤ byteLength rest := by omega
        have others := inductionHypothesis remaining
        omega

theorem takeCovering_byteLength (front back : List Char) :
    takeCovering (byteLength front) (front ++ back) = front := by
  induction front with
  | nil => cases back <;> rfl
  | cons head rest inductionHypothesis =>
      have positive := head.utf8Size_pos
      rw [List.cons_append, takeCovering, byteLength, if_neg (by omega), Nat.add_sub_cancel_left,
        inductionHypothesis]

theorem eq_append_of_isPrefix {text : String} {front : List Char}
    (isFront : front <+: text.toList) : ∃ rest, text = String.ofList front ++ rest := by
  obtain ⟨rest, whole⟩ := isFront
  refine ⟨String.ofList rest, ?_⟩
  rw [← String.ofList_append, whole, String.ofList_toList]

theorem longestFront_takeWithin (text : String) (offset : Nat) :
    LongestFront text offset (String.ofList (takeWithin offset text.toList)) where
  isFront := eq_append_of_isPrefix (takeWithin_isPrefix offset text.toList)
  within := by
    rw [utf8ByteSize_eq_byteLength, String.toList_ofList]
    exact byteLength_takeWithin_le offset text.toList
  longest := by
    rintro other rest rfl fits
    rw [utf8ByteSize_eq_byteLength] at fits
    rw [utf8ByteSize_eq_byteLength, utf8ByteSize_eq_byteLength, String.toList_ofList,
      String.toList_append]
    exact byteLength_le_takeWithin rest.toList fits

theorem shortestFront_takeCovering {text : String} {offset : Nat}
    (inside : offset ≤ text.utf8ByteSize) :
    ShortestFront text offset (String.ofList (takeCovering offset text.toList)) where
  isFront := eq_append_of_isPrefix (takeCovering_isPrefix offset text.toList)
  beyond := by
    rw [utf8ByteSize_eq_byteLength] at inside
    rw [utf8ByteSize_eq_byteLength, String.toList_ofList]
    exact le_byteLength_takeCovering inside
  shortest := by
    rintro other rest rfl covers
    rw [utf8ByteSize_eq_byteLength] at covers
    rw [utf8ByteSize_eq_byteLength, utf8ByteSize_eq_byteLength, String.toList_ofList,
      String.toList_append]
    exact takeCovering_le_byteLength rest.toList covers

/-! ## Cutting out a range -/

/-- The parts of a text around a range of bytes that is widened to whole characters. -/
structure Widened (text : String) (start stop : Nat) (front cut back : String) : Prop where
  whole : text = front ++ cut ++ back
  before : LongestFront text start front
  through : ShortestFront text stop (front ++ cut)

theorem exists_widened {text : String} {start stop : Nat} (ordered : start ≤ stop)
    (inside : stop ≤ text.utf8ByteSize) : ∃ front cut back : String,
      cutAt start stop text.toList = (front.toList, cut.toList, back.toList) ∧
      Widened text start stop front cut back := by
  obtain ⟨whole, through⟩ := append_of_cutAt ordered text.toList
  refine ⟨String.ofList (cutAt start stop text.toList).1,
    String.ofList (cutAt start stop text.toList).2.1,
    String.ofList (cutAt start stop text.toList).2.2, ?_, ?_,
    longestFront_takeWithin text start, ?_⟩
  · simp only [String.toList_ofList]
  · rw [← String.ofList_append, ← String.ofList_append, whole, String.ofList_toList]
  · rw [← String.ofList_append, through]
    exact shortestFront_takeCovering inside

/-- At the boundaries of a part that part is cut out. -/
theorem cutAt_boundaries (front middle back : List Char) :
    cutAt (byteLength front) (byteLength front + byteLength middle) (front ++ middle ++ back) =
      (front, middle, back) := by
  have before : takeWithin (byteLength front) (front ++ middle ++ back) = front := by
    rw [List.append_assoc, takeWithin_byteLength]
  rw [cutAt, before, ← byteLength_append, takeCovering_byteLength, List.drop_left, List.drop_left]

end Text

namespace Heap

variable {σ : Signature} {heap : Heap σ}

/-! ## The range -/

/-- The range of bytes that an offset and a length mean: it begins at the offset, counted from the
end if it is negative, and both of its ends are moved into the text. -/
structure MeansRange (size : Nat) (offset length : Int) (start stop : Nat) : Prop where
  begins : (start : Int) =
    max 0 (min (size : Int) (if offset < 0 then size + offset else offset))
  ends : (stop : Int) = max (start : Int) (min (size : Int) (start + length))

theorem meansRange_byteRange (size : Nat) (offset length : Int) :
    MeansRange size offset length (byteRange size offset length).1
      (byteRange size offset length).2 := by
  unfold byteRange
  generalize place : (if offset < 0 then (size : Int) + offset else offset) = start
  dsimp only
  have begins : ((max 0 (min start size)).toNat : Int) = max 0 (min (size : Int) start) := by
    rw [Int.toNat_of_nonneg (le_max_left _ _), min_comm]
  refine ⟨place ▸ begins, ?_⟩
  generalize (max 0 (min start (size : Int))).toNat = first
  rw [Nat.cast_add, Int.toNat_of_nonneg (le_max_left _ _)]
  omega

theorem MeansRange.inside {size start stop : Nat} {offset length : Int}
    (range : MeansRange size offset length start stop) : start ≤ stop ∧ stop ≤ size := by
  obtain ⟨begins, ends⟩ := range
  omega

/-- A range within the text is meant as it is given. -/
theorem byteRange_of_le {size start extent : Nat} (fits : start + extent ≤ size) :
    byteRange size start extent = (start, start + extent) := by
  unfold byteRange
  dsimp only
  rw [if_neg (by omega)]
  refine Prod.ext ?_ ?_ <;> dsimp only <;> omega

/-- The range of a part is the part. -/
theorem cutAt_byteRange (front middle back : String) :
    let range := byteRange (front ++ middle ++ back).utf8ByteSize front.utf8ByteSize
      middle.utf8ByteSize
    Text.cutAt range.1 range.2 (front ++ middle ++ back).toList =
      (front.toList, middle.toList, back.toList) := by
  have fits : front.utf8ByteSize + middle.utf8ByteSize ≤
      (front ++ middle ++ back).utf8ByteSize := by
    rw [String.utf8ByteSize_append, String.utf8ByteSize_append]
    exact Nat.le_add_right _ _
  dsimp only
  rw [byteRange_of_le fits, String.toList_append, String.toList_append,
    Text.utf8ByteSize_eq_byteLength, Text.utf8ByteSize_eq_byteLength]
  exact Text.cutAt_boundaries _ _ _

/-! ## Replacing -/

/-- Both answers are new strings, and the one that is made first is kept. -/
theorem splice_strings (consistent : heap.Consistent) {text : Value} (inserted : Value)
    {offset length : Int} {front cut back : String}
    (parts : Text.cutAt (byteRange (heap.text text).utf8ByteSize offset length).1
      (byteRange (heap.text text).utf8ByteSize offset length).2 (heap.text text).toList =
        (front.toList, cut.toList, back.toList)) :
    let done := heap.splice text inserted offset length
    done.2.Consistent ∧ done.2.payload done.1.1 = .text (front ++ heap.text inserted ++ back) ∧
      done.2.payload done.1.2 = .text cut := by
  have removing := consistent.create (.text cut)
  simp only [splice, parts, string, String.ofList_toList]
  refine ⟨removing.create _, payload_create_self removing _, ?_⟩
  rw [payload_create_of_issued removing _ (issued_create_self consistent _)]
  exact payload_create_self consistent _

/-- Replacing a range of bytes, whatever the offset and the length.

The range is widened to whole characters; what is in it is answered as it was, and in the new text
the inserted text is in its place.  Both are new strings.  Replacing the inserted text by what was
cut out gives the text again, and answers the inserted text. -/
theorem Runs.splice_replaces_range {config : Config} (runs : Runs True (.new config) heap)
    (text inserted : Value) (offset length : Int) :
    let spliced := (heap.splice text inserted offset length).1.1
    let removed := (heap.splice text inserted offset length).1.2
    let heap' := (heap.splice text inserted offset length).2
    ∃ start stop front cut back,
      MeansRange (heap.text text).utf8ByteSize offset length start stop ∧
      Text.Widened (heap.text text) start stop front cut back ∧
      heap'.payload removed = .text cut ∧
      heap'.payload spliced = .text (front ++ heap.text inserted ++ back) ∧
      let undone := heap'.splice spliced removed front.utf8ByteSize
        (heap.text inserted).utf8ByteSize
      undone.2.payload undone.1.1 = .text (heap.text text) ∧
      undone.2.payload undone.1.2 = .text (heap.text inserted) := by
  intro spliced removed heap'
  have range := meansRange_byteRange (heap.text text).utf8ByteSize offset length
  obtain ⟨ordered, inside⟩ := range.inside
  obtain ⟨front, cut, back, parts, widened⟩ := Text.exists_widened ordered inside
  obtain ⟨consistent', content, was⟩ :=
    splice_strings runs.proper_new.toConsistent inserted parts
  refine ⟨_, _, front, cut, back, range, widened, was, content, ?_⟩
  have written : heap'.text spliced = _ := text_of_payload_text content
  obtain ⟨-, restored, answered⟩ :=
    splice_strings consistent' removed (written ▸ cutAt_byteRange _ _ _)
  rw [show heap'.text removed = _ from text_of_payload_text was, ← widened.whole] at restored
  exact ⟨restored, answered⟩

/-- A text with a character of two bytes, and a number. -/
def accented : Heap .bare :=
  ((new {}).string "añb").2.int 42 |>.2

/-- Counted from the end, the offset lies inside the character of two bytes.  The whole character is
replaced by the text of the number, and replacing that brings it back. -/
theorem character_is_replaced_and_restored :
    Runs True (.new {}) accented ∧
    let done := accented.splice (.cell ⟨0, 0⟩) (.cell ⟨1, 0⟩) (-2) 1
    ∃ start stop front back, MeansRange 4 (-2) 1 start stop ∧ start = 2 ∧ stop = 3 ∧
      Text.Widened "añb" start stop front "ñ" back ∧
      done.2.payload done.1.1 = .text (front ++ "42" ++ back) ∧
      done.2.string? done.1.1 = some "a42b" ∧
      let undone := done.2.splice done.1.1 done.1.2 front.utf8ByteSize 2
      undone.2.payload undone.1.1 = .text "añb" ∧ undone.2.payload undone.1.2 = .text "42" := by
  have runs : Runs True (.new {}) accented :=
    .request (.request .refl (show perform _ (.string "añb") = .ok _ from rfl))
      (show perform _ (.int 42) = .ok _ from rfl)
  obtain ⟨start, stop, front, cut, back, range, widened, was, content, restored, answered⟩ :=
    runs.splice_replaces_range (.cell ⟨0, 0⟩) (.cell ⟨1, 0⟩) (-2) 1
  obtain ⟨text, number, read, new, size⟩ :
      accented.text (.cell ⟨0, 0⟩) = "añb" ∧ accented.text (.cell ⟨1, 0⟩) = "42" ∧
      (accented.splice (.cell ⟨0, 0⟩) (.cell ⟨1, 0⟩) (-2) 1).2.string?
        (accented.splice (.cell ⟨0, 0⟩) (.cell ⟨1, 0⟩) (-2) 1).1.2 = some "ñ" ∧
      (accented.splice (.cell ⟨0, 0⟩) (.cell ⟨1, 0⟩) (-2) 1).2.string?
        (accented.splice (.cell ⟨0, 0⟩) (.cell ⟨1, 0⟩) (-2) 1).1.1 = some "a42b" ∧
      "añb".utf8ByteSize = 4 := by
    decide +kernel
  obtain rfl : cut = "ñ" := by
    rw [string?, was] at read
    exact Option.some.inj read
  rw [text] at range widened restored
  rw [number] at content restored answered
  rw [size] at range
  have bounds : start = 2 ∧ stop = 3 := by
    obtain ⟨begins, ends⟩ := range
    rw [if_pos (by decide)] at begins
    omega
  exact ⟨runs, start, stop, front, back, range, bounds.1, bounds.2, widened, content, new,
    restored, answered⟩

end Heap

end CountedHeap
