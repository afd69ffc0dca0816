import CountedHeap.Proofs.Guarded
import CountedHeap.Proofs.ByteOrder
import CountedHeap.Strings
import Mathlib.Data.String.Basic

/-!
Contract: cutting a text, spelled by guarded steps on byte offsets.

A byte offset lies between two characters or inside one, and only the first kind can be cut at.
Sums, differences and limits of offsets are taken in 64 bits.

Owns:
- boundaries, and moving an offset to one;
- replacing a range of bytes and cutting out the characters, by guarded steps that never misstep.
-/

namespace CountedHeap

namespace Text

/-- Whether an offset lies between two characters, or at an end of the text. -/
def isBoundary : Nat → List Char → Bool
  | 0, _ => true
  | _ + 1, [] => false
  | offset + 1, head :: rest =>
      decide (head.utf8Size ≤ offset + 1) && isBoundary (offset + 1 - head.utf8Size) rest

@[simp] theorem isBoundary_zero (text : List Char) : isBoundary 0 text = true := by
  cases text <;> rfl

theorem byteLength_append (front back : List Char) :
    byteLength (front ++ back) = byteLength front + byteLength back := by
  induction front with
  | nil => simp [byteLength]
  | cons head rest inductionHypothesis =>
      simp only [List.cons_append, byteLength, inductionHypothesis]
      omega

theorem utf8ByteSize_eq_byteLength (text : String) :
    text.utf8ByteSize = byteLength text.toList := by
  conv_lhs => rw [← String.ofList_toList (s := text), String.utf8ByteSize_ofList]
  induction text.toList with
  | nil => rfl
  | cons head rest inductionHypothesis =>
      rw [String.utf8Len_cons, inductionHypothesis, byteLength, Nat.add_comm]

/-- The offset behind some leading characters is a boundary. -/
theorem isBoundary_byteLength (front back : List Char) :
    isBoundary (byteLength front) (front ++ back) = true := by
  induction front with
  | nil => exact isBoundary_zero _
  | cons head rest inductionHypothesis =>
      have positive := head.utf8Size_pos
      obtain ⟨offset, total⟩ : ∃ offset, byteLength (head :: rest) = offset + 1 :=
        Nat.exists_eq_add_of_le' (by rw [byteLength]; omega)
      have remaining : offset + 1 - head.utf8Size = byteLength rest := by
        rw [← total, byteLength, Nat.add_sub_cancel_left]
      rw [total, List.cons_append, isBoundary, remaining, inductionHypothesis, Bool.and_true,
        decide_eq_true_eq]
      rw [byteLength] at total
      omega

theorem takeWithin_byteLength (front back : List Char) :
    takeWithin (byteLength front) (front ++ back) = front := by
  induction front with
  | nil =>
      cases back with
      | nil => rfl
      | cons head rest =>
          have positive := head.utf8Size_pos
          rw [List.nil_append, byteLength, takeWithin, if_neg (by omega)]
  | cons head rest inductionHypothesis =>
      rw [List.cons_append, takeWithin, byteLength, if_pos (by omega), Nat.add_sub_cancel_left,
        inductionHypothesis]

/-- At a boundary nothing is moved. -/
theorem byteLength_takeWithin {offset : Nat} {text : List Char}
    (boundary : isBoundary offset text = true) : byteLength (takeWithin offset text) = offset := by
  induction text generalizing offset with
  | nil =>
      cases offset with
      | zero => rfl
      | succ offset => contradiction
  | cons head rest inductionHypothesis =>
      have positive := head.utf8Size_pos
      cases offset with
      | zero => rw [takeWithin, if_neg (by omega), byteLength]
      | succ offset =>
          obtain ⟨fits, restBoundary⟩ := Bool.and_eq_true_iff.mp boundary
          have fits := of_decide_eq_true fits
          rw [takeWithin, if_pos fits, byteLength, inductionHypothesis restBoundary]
          omega

theorem byteLength_takeCovering {offset : Nat} {text : List Char}
    (boundary : isBoundary offset text = true) :
    byteLength (takeCovering offset text) = offset := by
  induction text generalizing offset with
  | nil =>
      cases offset with
      | zero => rfl
      | succ offset => contradiction
  | cons head rest inductionHypothesis =>
      cases offset with
      | zero => rw [takeCovering, if_pos rfl, byteLength]
      | succ offset =>
          obtain ⟨fits, restBoundary⟩ := Bool.and_eq_true_iff.mp boundary
          have fits := of_decide_eq_true fits
          rw [takeCovering, if_neg (by omega), byteLength, inductionHypothesis restBoundary]
          omega

/-- Inside a character one byte less makes no difference to a cut that moves down. -/
theorem takeWithin_succ {offset : Nat} {text : List Char}
    (inside : isBoundary (offset + 1) text = false) :
    takeWithin (offset + 1) text = takeWithin offset text := by
  induction text generalizing offset with
  | nil => rfl
  | cons head rest inductionHypothesis =>
      rw [isBoundary] at inside
      by_cases fits : head.utf8Size ≤ offset
      · have remaining : offset + 1 - head.utf8Size = offset - head.utf8Size + 1 := by omega
        rw [remaining, decide_eq_true (by omega), Bool.true_and] at inside
        rw [takeWithin, if_pos (by omega), takeWithin, if_pos fits, remaining,
          inductionHypothesis inside]
      · have covers : ¬head.utf8Size ≤ offset + 1 := by
          intro exactly
          have nothing : offset + 1 - head.utf8Size = 0 := by omega
          rw [nothing, decide_eq_true exactly, isBoundary_zero] at inside
          contradiction
        rw [takeWithin, if_neg covers, takeWithin, if_neg fits]

/-- And one byte more makes none to a cut that moves up. -/
theorem takeCovering_succ {offset : Nat} {text : List Char}
    (inside : isBoundary offset text = false) :
    takeCovering (offset + 1) text = takeCovering offset text := by
  induction text generalizing offset with
  | nil => rfl
  | cons head rest inductionHypothesis =>
      cases offset with
      | zero => contradiction
      | succ offset =>
          rw [isBoundary] at inside
          rw [takeCovering, if_neg (by omega), takeCovering, if_neg (by omega)]
          congr 1
          by_cases fits : head.utf8Size ≤ offset + 1
          · rw [decide_eq_true fits, Bool.true_and] at inside
            have remaining : offset + 1 + 1 - head.utf8Size = offset + 1 - head.utf8Size + 1 := by
              omega
            rw [remaining, inductionHypothesis inside]
          · have same : offset + 1 + 1 - head.utf8Size = offset + 1 - head.utf8Size := by omega
            rw [same]

/-- The three parts around a byte range, and where the last of them begins. -/
theorem append_of_cutAt {first last : Nat} (ordered : first ≤ last) (text : List Char) :
    (cutAt first last text).1 ++ (cutAt first last text).2.1 ++ (cutAt first last text).2.2 =
        text ∧
      (cutAt first last text).1 ++ (cutAt first last text).2.1 = takeCovering last text := by
  have whole := cutAt_append ordered text
  refine ⟨whole, ?_⟩
  obtain ⟨rest, through⟩ := takeCovering_isPrefix last text
  have back : (cutAt first last text).2.2 = rest := by
    have dropped := congrArg (List.drop (takeCovering last text).length) through
    rw [List.drop_left] at dropped
    exact dropped.symm
  rw [back] at whole
  exact List.append_cancel_right (whole.trans through.symm)

end Text

namespace Guarded

open Text

variable {m : Type → Type} [Monad m]

/-- Move an offset down to a boundary. -/
def lower (text : List Char) (offset : Nat) : Guarded m Nat :=
  if isBoundary offset text then pure offset
  else
    match offset with
    | 0 => throw .difference
    | offset + 1 => lower text offset

/-- Move an offset up to a boundary. -/
def raise (text : List Char) (offset : Nat) : Guarded m Nat :=
  if isBoundary offset text then pure offset
  else if offset < byteLength text then raise text (offset + 1)
  else throw .range
termination_by byteLength text - offset

/-- The characters between two offsets. -/
def cut (text : List Char) (first last : Nat) : Guarded m (List Char) :=
  if first ≤ last then
    if isBoundary first text && isBoundary last text then
      pure ((takeWithin last text).drop (takeWithin first text).length)
    else throw .boundary
  else throw .range

/-- A number of 64 bits. -/
def word (number : Int) : Guarded m Int :=
  if Int64.minValue.toInt ≤ number ∧ number ≤ Int64.maxValue.toInt then pure number
  else throw .overflow

/-- A number moved between two limits. -/
def clamp (number low high : Int) : Guarded m Int :=
  if low ≤ high then pure (max low (min number high)) else throw .overflow

/-- The place that an offset means, which may lie before the text or behind it. -/
def placeOf (size : Nat) (offset : Int) : Guarded m Int :=
  if offset < 0 then word (size + offset) else pure offset

/-- The byte range that an offset and a length mean in a text of `size` bytes. -/
def byteRange (size : Nat) (offset length : Int) : Guarded m (Nat × Nat) := do
  let place ← placeOf size offset
  let first ← clamp place 0 size
  let room ← word (size - first)
  let extent ← clamp length 0 room
  return (first.toNat, first.toNat + extent.toNat)

/-- A text with a range of bytes replaced, and what was there. -/
def spliceText (text inserted : String) (offset length : Int) : Guarded m (String × String) := do
  let characters := text.toList
  let (start, stop) ← byteRange text.utf8ByteSize offset length
  let first ← lower characters start
  let last ← raise characters stop
  let extent ← minus last first
  let _ ← minus text.utf8ByteSize extent
  let front ← cut characters 0 first
  let back ← cut characters last text.utf8ByteSize
  let removed ← cut characters first last
  return (String.ofList front ++ inserted ++ String.ofList back, String.ofList removed)

/-- Replace a range of bytes of a text. -/
def splice {σ : Signature} (heap : Heap σ) (text inserted : Value) (offset length : Int) :
    Guarded m ((Value × Value) × Heap σ) := do
  let (content, removed) ← spliceText (heap.text text) (heap.text inserted) offset length
  let (removed, heap) := heap.string removed
  let (spliced, heap) := heap.string content
  return ((spliced, removed), heap)

theorem lower_eq (text : List Char) (offset : Nat) :
    lower text offset = (pure (byteLength (takeWithin offset text)) : Guarded m Nat) := by
  induction offset with
  | zero =>
      have boundary := isBoundary_zero text
      rw [lower, if_pos boundary, byteLength_takeWithin boundary]
  | succ offset inductionHypothesis =>
      rw [lower]
      split
      next boundary => rw [byteLength_takeWithin boundary]
      next inside =>
        rw [takeWithin_succ (Bool.eq_false_iff.mpr inside)]
        exact inductionHypothesis

theorem raise_eq {text : List Char} {offset : Nat} (reaches : offset ≤ byteLength text) :
    raise text offset = (pure (byteLength (takeCovering offset text)) : Guarded m Nat) := by
  induction remaining : byteLength text - offset generalizing offset with
  | zero =>
      have boundary : isBoundary offset text = true := by
        have whole := isBoundary_byteLength text []
        rwa [List.append_nil, (by omega : byteLength text = offset)] at whole
      rw [raise, if_pos boundary, byteLength_takeCovering boundary]
  | succ remaining inductionHypothesis =>
      rw [raise]
      split
      next boundary => rw [byteLength_takeCovering boundary]
      next inside =>
        rw [if_pos (by omega), ← takeCovering_succ (Bool.eq_false_iff.mpr inside)]
        exact inductionHypothesis (by omega) (by omega)

/-- Cutting out characters that stand in a text. -/
theorem cut_eq (front middle back : List Char) :
    cut (front ++ middle ++ back) (byteLength front) (byteLength (front ++ middle)) =
      (pure middle : Guarded m (List Char)) := by
  have ordered : byteLength front ≤ byteLength (front ++ middle) := by
    rw [byteLength_append]
    omega
  have first := isBoundary_byteLength front (middle ++ back)
  have taken := takeWithin_byteLength front (middle ++ back)
  rw [← List.append_assoc] at first taken
  rw [cut, if_pos ordered, first, isBoundary_byteLength, taken, takeWithin_byteLength,
    List.drop_left]
  rfl

theorem word_eq {number : Int} (low : Int64.minValue.toInt ≤ number)
    (high : number ≤ Int64.maxValue.toInt) : word number = (pure number : Guarded m Int) :=
  if_pos ⟨low, high⟩

theorem clamp_eq {low high : Int} (ordered : low ≤ high) (number : Int) :
    clamp number low high = (pure (max low (min number high)) : Guarded m Int) :=
  if_pos ordered

theorem byteRange_eq [LawfulMonad m] {size : Nat} (fits : (size : Int) ≤ Int64.maxValue.toInt)
    {offset : Int} (isWord : Int64.minValue.toInt ≤ offset) (length : Int) :
    byteRange size offset length =
      (pure (Heap.byteRange size offset length) : Guarded m (Nat × Nat)) := by
  have negative : Int64.minValue.toInt ≤ 0 := by decide
  have place : placeOf size offset =
      (pure (if offset < 0 then size + offset else offset) : Guarded m Int) := by
    unfold placeOf
    split
    next before => exact word_eq (by omega) (by omega)
    next => rfl
  unfold byteRange Heap.byteRange
  dsimp only
  rw [place, pure_bind, clamp_eq (Int.natCast_nonneg size), pure_bind]
  generalize (if offset < 0 then (size : Int) + offset else offset) = place
  have inside : max 0 (min place size) ≤ (size : Int) ∧ 0 ≤ max 0 (min place (size : Int)) := by
    omega
  rw [word_eq (by omega) (by omega), pure_bind, clamp_eq (by omega), pure_bind,
    Int.toNat_of_nonneg inside.2]

theorem spliceText_eq [LawfulMonad m] {text : String}
    (fits : (text.utf8ByteSize : Int) ≤ Int64.maxValue.toInt) (inserted : String) {offset : Int}
    (isWord : Int64.minValue.toInt ≤ offset) (length : Int) :
    spliceText text inserted offset length =
      (let range := Heap.byteRange text.utf8ByteSize offset length
       let parts := cutAt range.1 range.2 text.toList
       pure (String.ofList parts.1 ++ inserted ++ String.ofList parts.2.2,
        String.ofList parts.2.1) : Guarded m (String × String)) := by
  have ordered := Heap.byteRange_ordered text.utf8ByteSize offset length
  have inside : (Heap.byteRange text.utf8ByteSize offset length).2 ≤ byteLength text.toList := by
    rw [← utf8ByteSize_eq_byteLength]
    unfold Heap.byteRange
    dsimp only
    omega
  unfold spliceText
  rw [byteRange_eq fits isWord, pure_bind]
  generalize Heap.byteRange text.utf8ByteSize offset length = range at ordered inside
  obtain ⟨start, stop⟩ := range
  obtain ⟨whole, through⟩ := append_of_cutAt ordered text.toList
  have front : takeWithin start text.toList = (cutAt start stop text.toList).1 := rfl
  dsimp only
  rw [lower_eq, pure_bind, raise_eq inside, pure_bind, ← through, front,
    utf8ByteSize_eq_byteLength]
  generalize cutAt start stop text.toList = parts at whole
  obtain ⟨front, middle, back⟩ := parts
  dsimp only at whole ⊢
  have frontCut := cut_eq (m := m) [] front (middle ++ back)
  have backCut := cut_eq (m := m) (front ++ middle) back []
  rw [List.nil_append, ← List.append_assoc, whole, byteLength] at frontCut
  rw [List.append_nil, whole] at backCut
  have lengths := congrArg byteLength whole
  rw [byteLength_append, byteLength_append] at lengths
  rw [minus_eq (by rw [byteLength_append]; omega), pure_bind,
    minus_eq (by rw [byteLength_append]; omega), pure_bind, frontCut, pure_bind, backCut,
    pure_bind]
  have middleCut := cut_eq (m := m) front middle back
  rw [whole] at middleCut
  rw [middleCut, pure_bind]

/-- Replacing a range of bytes of a text that 64 bits can measure never missteps. -/
theorem splice_eq [LawfulMonad m] {σ : Signature} {heap : Heap σ} {text : Value}
    (fits : ((heap.text text).utf8ByteSize : Int) ≤ Int64.maxValue.toInt) (inserted : Value)
    {offset : Int} (isWord : Int64.minValue.toInt ≤ offset) (length : Int) :
    splice heap text inserted offset length =
      (pure (heap.splice text inserted offset length) :
        Guarded m ((Value × Value) × Heap σ)) := by
  unfold splice
  rw [spliceText_eq fits _ isWord, pure_bind]
  rfl

/-! ## Cutting a text into its characters -/

/-- The characters of a text from some place on, each cut out between its two boundaries. -/
def charactersFrom (text : List Char) (place : Nat) : List Char → Guarded m (List String)
  | [] => return []
  | character :: rest => do
      let next := place + character.utf8Size
      let content ← cut text place next
      let others ← charactersFrom text next rest
      return String.ofList content :: others

/-- The parts of a text. -/
def parts (separator text : String) : Guarded m (List String) :=
  if text.isEmpty then return []
  else if separator.isEmpty then charactersFrom text.toList 0 text.toList
  else return (pieces separator.toList text.toList).map String.ofList

/-- A new array of the parts of a text. -/
def split {σ : Signature} (heap : Heap σ) (separator text : Value) :
    Guarded (Except Exhausted) (Value × Heap σ) := do
  let cut ← parts (heap.text separator) (heap.text text)
  let (array, heap) ← liftM (heap.array cut.length)
  let heap ← liftM (Heap.pushStrings array cut heap)
  return (array, heap)

theorem charactersFrom_eq [LawfulMonad m] (front rest : List Char) :
    charactersFrom (front ++ rest) (byteLength front) rest =
      (pure (rest.map fun character => String.ofList [character]) : Guarded m (List String)) := by
  induction rest generalizing front with
  | nil => rfl
  | cons character rest inductionHypothesis =>
      have next : byteLength front + character.utf8Size = byteLength (front ++ [character]) := by
        rw [byteLength_append, byteLength, byteLength, Nat.add_zero]
      have here := cut_eq (m := m) front [character] rest
      have others := inductionHypothesis (front ++ [character])
      rw [List.append_assoc, List.singleton_append] at here others
      rw [charactersFrom, next, here, pure_bind, others, pure_bind]
      rfl

theorem parts_eq [LawfulMonad m] (separator text : String) :
    parts separator text = (pure (Text.parts separator text) : Guarded m (List String)) := by
  unfold parts Text.parts
  split
  · rfl
  · split
    · exact charactersFrom_eq [] text.toList
    · rfl

/-- Cutting a text never missteps. -/
theorem split_eq {σ : Signature} (heap : Heap σ) (separator text : Value) :
    split heap separator text = liftM (heap.split separator text) := by
  unfold split Heap.split
  rw [parts_eq, pure_bind]
  refine liftM_bind_eq fun made _ => liftM_bind_eq fun filled _ => rfl

end Guarded

end CountedHeap
