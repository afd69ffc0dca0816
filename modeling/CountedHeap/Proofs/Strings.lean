import CountedHeap.Proofs.Sequences
import CountedHeap.Strings

/-!
Contract: cutting, joining and replacing text writes no cell that was there before.

Owns: one step for each operation on strings.
-/

namespace CountedHeap.Heap

variable {σ : Signature} {heap heap' : Heap σ} {held : Multiset Value}

theorem Step.string (sound : heap.Sound held) (content : String) :
    Step ∅ True heap (heap.string content).2 held :=
  .createSingle sound rfl (by simp)

theorem Step.array (sound : heap.Sound held) {capacity : Nat} {array : Value}
    (done : heap.array capacity = .ok (array, heap')) : Step ∅ True heap heap' held := by
  obtain ⟨-, -, made⟩ := bind_eq_ok.mp done
  obtain ⟨-, rfl⟩ := Prod.mk.inj (Except.ok.inj made)
  exact .createSingle sound rfl (by simp)

theorem Step.pushItem (sound : heap.Sound held) {sequence element answer : Value}
    (issued : heap.Issued element)
    (done : heap.pushItem sequence element = .ok (answer, heap')) :
    Step {sequence} (¬heap.IsBucket sequence) heap heap' held :=
  .insertItem sound issued done

theorem Step.pushStrings {array : Value} {contents : List String} (sound : heap.Sound held)
    (issued : heap.Issued array) (done : Heap.pushStrings array contents heap = .ok heap') :
    Step {array} (¬heap.IsBucket array) heap heap' held := by
  induction contents generalizing heap with
  | nil =>
      obtain rfl := Except.ok.inj done
      exact .refl _ _ sound
  | cons content rest inductionHypothesis =>
      obtain ⟨⟨stored, pushed⟩, pushing, last⟩ := bind_eq_ok.mp done
      have making := Step.string sound content
      have push := Step.pushItem making.sound (issued_create sound _) pushing
      have first := making.weaken.trans push (fun _ _ => id) (making.keeps.not_isBucket issued)
      exact first.trans (inductionHypothesis first.sound (first.keeps.issued issued) last)
        (fun _ _ => id) (first.keeps.not_isBucket issued)

/-- A cell that was just made is not the array of a bucket. -/
theorem not_isBucket_create (sound : heap.Sound held) {payload : Payload σ}
    (childless : payload.children = [])
    (empty : ∀ content, payload = .hash content → content = {}) :
    ¬(heap.create payload).2.IsBucket (heap.create payload).1 := by
  have making := Step.createSingle sound childless empty
  have found := cell?_create_self sound.toConsistent payload
  rintro ⟨table, -, content, isTable, member⟩
  have unheld := (making.sound.toCounted.exact.unreferenced (isLive_of_cell? found)
    (by simp [refs, found])).2
  refine unheld (mem_references_iff.mpr ⟨table, isLive_of_table? isTable, ?_⟩)
  rwa [children_of_table? isTable]

/-- The parts of a text are pushed onto an array that is as new as they are. -/
theorem Step.split (sound : heap.Sound held) {separator text answer : Value}
    (done : heap.split separator text = .ok (answer, heap')) : Step ∅ True heap heap' held := by
  obtain ⟨⟨array, made⟩, making, done⟩ := bind_eq_ok.mp done
  obtain ⟨after, pushing, last⟩ := bind_eq_ok.mp done
  obtain ⟨-, rfl⟩ := Prod.mk.inj (Except.ok.inj last)
  have first := Step.array sound making
  obtain ⟨-, -, created⟩ := bind_eq_ok.mp making
  obtain ⟨rfl, rfl⟩ := Prod.mk.inj (Except.ok.inj created)
  have push := Step.pushStrings first.sound (issued_create sound _) pushing
  refine first.trans push (fun valueIssued _ written => ?_)
    (fun _ => not_isBucket_create sound rfl (by simp))
  exact absurd (written ▸ valueIssued) (not_issued_create sound.toConsistent _)

theorem Step.join (sound : heap.Sound held) (separator sequence : Value) :
    Step ∅ True heap (heap.join separator sequence).2 held := by
  unfold Heap.join
  split
  next => exact .string sound _
  next => exact .string sound _

theorem Step.splice (sound : heap.Sound held) (text inserted : Value) (offset length : Int) :
    Step ∅ True heap (heap.splice text inserted offset length).2 held := by
  have removing := Step.string sound
  exact (removing _).andThen (.string (removing _).sound _)

end CountedHeap.Heap
