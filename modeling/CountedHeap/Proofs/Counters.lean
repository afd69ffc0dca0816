import CountedHeap.Proofs.Handles
import Mathlib.Logic.Function.Iterate

/-!
Contract: counters that are words of 32 bits.

Reference counts, generations and serial numbers are numbers without bound here.  In words, a
count that is the largest word stays where it is, and a generation or a serial number begins
again at zero.  The three elementary changes that count up are restated with words.  They are the
changes of numbers as long as the counter is below the largest word, so a run that keeps its
counters there is the same run in words.

Owns:
- retaining, emptying a slot and making a scratch cell, in words;
- heaps whose counters are all below the largest word, and the agreement there;
- what retaining, releasing and reclaiming come to when they are done many times.

Does not own: releasing, which stops at zero in words and in numbers.
-/

namespace CountedHeap

/-- The largest word. -/
def largestWord : Nat := 4294967295

/-- One more, but no more than the largest word. -/
def countUp (count : Nat) : Nat :=
  min (count + 1) largestWord

/-- The next word.  Zero comes after the largest. -/
def nextWord (word : Nat) : Nat :=
  (word + 1) % (largestWord + 1)

theorem countUp_eq {count : Nat} (below : count < largestWord) : countUp count = count + 1 :=
  Nat.min_eq_left below

theorem nextWord_eq {word : Nat} (below : word < largestWord) : nextWord word = word + 1 :=
  Nat.mod_eq_of_lt (Nat.succ_lt_succ below)

/-- Counting in words is counting around a circle. -/
theorem iterate_nextWord {word : Nat} (small : word ≤ largestWord) (times : Nat) :
    nextWord^[times] word = (word + times) % (largestWord + 1) := by
  induction times with
  | zero => exact (Nat.mod_eq_of_lt (Nat.lt_succ_of_le small)).symm
  | succ times inductionHypothesis =>
      rw [Function.iterate_succ_apply', inductionHypothesis, nextWord, Nat.mod_add_mod,
        Nat.add_assoc]

namespace Heap

variable {σ : Signature} {heap : Heap σ}

/-- One more holder of a value, counted in a word. -/
def retainWord (heap : Heap σ) (value : Value) : Heap σ :=
  heap.modifyCell value fun cell => { cell with refs := countUp cell.refs }

/-- Empty a slot whose generation is a word. -/
def vacateWord (heap : Heap σ) (index : Nat) : Heap σ :=
  { heap with
    slots := heap.slots.modify index fun slot =>
      { generation := nextWord slot.generation, cell := none }
    free := index :: heap.free
    live := heap.live - 1 }

/-- Make a scratch cell where serial numbers are words. -/
def createScratchWord (heap : Heap σ) (payload : Payload σ) : Value × Heap σ :=
  (.scratch ⟨heap.scratch.size, heap.nextSerial⟩,
    { heap with
      scratch := heap.scratch.push { serial := heap.nextSerial, cell := { payload } }
      nextSerial := nextWord heap.nextSerial })

/-- No counter has come to the largest word. -/
structure CountersFit (heap : Heap σ) : Prop where
  refs : ∀ value, heap.refs value < largestWord
  generation : ∀ (index : Nat) (slot : Slot σ),
    heap.slots[index]? = some slot → slot.generation < largestWord
  serial : heap.nextSerial < largestWord

/-! ## Below the largest word -/

theorem retainWord_eq_retain {value : Value} (below : heap.refs value < largestWord) :
    heap.retainWord value = heap.retain value := by
  refine modifyCell_congr fun cell found => ?_
  rw [refs, found] at below
  rw [countUp_eq below]

theorem vacateWord_eq_vacate {index : Nat}
    (below : ∀ slot, heap.slots[index]? = some slot → slot.generation < largestWord) :
    heap.vacateWord index = heap.vacate index := by
  simp only [vacateWord, vacate, Heap.mk.injEq, and_true, true_and]
  apply Array.ext_getElem?
  intro other
  simp only [Array.getElem?_modify]
  split
  next here =>
    subst here
    cases found : heap.slots[index]? with
    | none => rfl
    | some slot => rw [Option.map_some, Option.map_some, nextWord_eq (below slot found)]
  next => rfl

theorem createScratchWord_eq_createScratch (below : heap.nextSerial < largestWord)
    (payload : Payload σ) : heap.createScratchWord payload = heap.createScratch payload := by
  rw [createScratchWord, createScratch, nextWord_eq below]

/-- Where the counters fit, words count as numbers do. -/
theorem CountersFit.words_eq_numbers (fit : heap.CountersFit) (value : Value) (index : Nat)
    (payload : Payload σ) :
    heap.retainWord value = heap.retain value ∧ heap.vacateWord index = heap.vacate index ∧
      heap.createScratchWord payload = heap.createScratch payload :=
  ⟨retainWord_eq_retain (fit.refs value), vacateWord_eq_vacate (fit.generation index),
    createScratchWord_eq_createScratch fit.serial payload⟩

/-! ## Many times -/

/-- Retained many times, a count is what it would be as a number, or the largest word. -/
theorem iterate_retainWord (heap : Heap σ) (value : Value) (times : Nat) :
    (retainWord · value)^[times + 1] heap = heap.modifyCell value fun cell =>
      { cell with refs := min (cell.refs + (times + 1)) largestWord } := by
  induction times with
  | zero => rfl
  | succ times inductionHypothesis =>
      rw [Function.iterate_succ_apply', inductionHypothesis, retainWord, modifyCell_modifyCell]
      congr 1
      funext cell
      simp only [countUp, Cell.mk.injEq, and_true]
      omega

theorem iterate_release (heap : Heap σ) (value : Value) (times : Nat) :
    (release · value)^[times + 1] heap = heap.modifyCell value fun cell =>
      { cell with refs := cell.refs - (times + 1) } := by
  induction times with
  | zero => rfl
  | succ times inductionHypothesis =>
      rw [Function.iterate_succ_apply', inductionHypothesis, release, modifyCell_modifyCell]
      congr 1

/-- Of a value that is retained as often as there are words, the count is zero as soon as it is
released once less, although one holder is left. -/
theorem release_of_saturated (heap : Heap σ) (value : Value) {times : Nat}
    (often : largestWord ≤ times) :
    (release · value)^[times] ((retainWord · value)^[largestWord + 1] heap) =
      heap.modifyCell value fun cell => { cell with refs := 0 } := by
  have lasts := iterate_release ((retainWord · value)^[largestWord + 1] heap) value (times - 1)
  rw [Nat.sub_add_cancel (Nat.le_trans (by decide : 1 ≤ largestWord) often)] at lasts
  rw [lasts, iterate_retainWord, modifyCell_modifyCell]
  refine modifyCell_congr fun cell _ => ?_
  have nothing : min (cell.refs + (largestWord + 1)) largestWord - times = 0 :=
    Nat.sub_eq_zero_of_le (Nat.le_trans (Nat.min_le_right _ _) often)
  rw [nothing]

/-- A heap of one slot, which is free. -/
def oneFreeSlot (generation allocated : Nat) : Heap σ :=
  { slots := #[{ generation, cell := none }], free := [0], allocated }

/-- Make a cell in the slot of such a heap, and reclaim it. -/
def recycleWord (payload : Payload σ) (heap : Heap σ) : Heap σ :=
  (heap.create payload).2.vacateWord 0

/-- A slot that is reclaimed many times goes through the words, again and again. -/
theorem iterate_recycleWord (payload : Payload σ) (generation allocated times : Nat) :
    (recycleWord payload)^[times] (oneFreeSlot generation allocated) =
      oneFreeSlot (nextWord^[times] generation) (allocated + times) := by
  induction times with
  | zero => rfl
  | succ times inductionHypothesis =>
      rw [Function.iterate_succ_apply', inductionHypothesis, Function.iterate_succ_apply']
      simp [recycleWord, oneFreeSlot, create, vacateWord, Nat.add_assoc]

end Heap

end CountedHeap
