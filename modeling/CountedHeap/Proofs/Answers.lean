import CountedHeap.Proofs.Paths
import CountedHeap.Proofs.Strings

/-!
Contract: what an operation answers is an issued handle.

A program may pass on what it is answered.  An answer names a cell that was made, an element that
was stored, or nothing.

Owns: one lemma for each operation that answers a handle.
-/

namespace CountedHeap.Heap

variable {σ : Signature} {heap heap' : Heap σ} {held : Multiset Value}

/-! ## Sequences -/

/-- An element at a position, or the absent value past the end. -/
theorem issued_getElem?_getD {items : List Value} (issued : ∀ item ∈ items, heap.Issued item)
    (index : Nat) : heap.Issued (items[index]?.getD .null) := by
  cases found : items[index]? with
  | none => exact issued_null
  | some item => exact issued item (List.mem_of_getElem? found)

theorem issued_getItem (sound : heap.Sound held) (sequence : Value) (offset : Int) :
    heap.Issued (heap.getItem sequence offset) := by
  unfold getItem
  split
  · exact issued_null
  next items found =>
    split
    · exact issued_null
    · exact issued_getElem?_getD (fun item member => issued_items sound found member) _

theorem issued_arrayOf {items : List Value} (sound : heap.Sound held)
    (issued : ∀ item ∈ items, heap.Issued item) :
    (heap.arrayOf items).2.Issued (heap.arrayOf items).1 := by
  obtain ⟨owning, -⟩ := Step.ownAll sound issued
  exact issued_create_self owning.sound.toConsistent _

theorem issued_setItem (sound : heap.Sound held) {sequence element answer : Value} {offset : Int}
    (issued : heap.Issued element)
    (done : heap.setItem sequence element offset = .ok (answer, heap')) :
    heap'.Issued answer := by
  unfold Heap.setItem at done
  split at done
  next =>
    obtain ⟨rfl, -⟩ := Prod.mk.inj (Except.ok.inj done)
    exact issued_null
  next index found =>
    have owning := Step.own sound issued
    have owned := owned_own sound issued
    revert owning owned done
    generalize heap.own element = result
    obtain ⟨stored, between⟩ := result
    intro done owning owned
    simp only at done
    split at done
    next =>
      obtain ⟨rfl, -⟩ := Prod.mk.inj (Except.ok.inj done)
      exact issued_null
    next items itemsFound =>
      obtain ⟨reached, padded, last⟩ := bind_eq_ok.mp done
      obtain ⟨rfl, rfl⟩ := Prod.mk.inj (Except.ok.inj last)
      have whole := (padTo_eq_ok_iff.mp padded).2
      have inside : index < reached.length := by
        have length := length_padTo padded
        omega
      have replacing := Step.replaceItem owning.sound itemsFound whole inside owned.issued
        owned.durable
      apply replacing.keeps.issued
      apply issued_getElem?_getD
      intro item member
      rw [whole] at member
      rcases List.mem_append.mp member with old | absent
      · exact issued_items owning.sound itemsFound old
      · rw [List.eq_of_mem_replicate absent]
        exact issued_null

theorem issued_insertItem (sound : heap.Sound held) {sequence element answer : Value}
    {offset : Int} (issued : heap.Issued element)
    (done : heap.insertItem sequence element offset = .ok (answer, heap')) :
    heap'.Issued answer := by
  unfold Heap.insertItem at done
  split at done
  next =>
    obtain ⟨rfl, -⟩ := Prod.mk.inj (Except.ok.inj done)
    exact issued_null
  next index found =>
    have owning := Step.own sound issued
    have owned := owned_own sound issued
    obtain ⟨⟨grown, expanded⟩, expanding, done⟩ := bind_eq_ok.mp done
    obtain ⟨⟨previous, stored⟩, storing, last⟩ := bind_eq_ok.mp done
    obtain ⟨rfl, rfl⟩ := Prod.mk.inj (Except.ok.inj last)
    have expandStep := Step.expandItems owning.sound expanding
    have issuedExpanded := expandStep.keeps.issued owned.issued
    exact (Step.setItem expandStep.sound issuedExpanded storing).keeps.issued issuedExpanded

theorem issued_deleteItem (sound : heap.Sound held) (sequence : Value) (offset : Int) :
    (heap.deleteItem sequence offset).2.Issued (heap.deleteItem sequence offset).1 := by
  have deleting := Step.deleteItem sound sequence offset
  revert deleting
  unfold Heap.deleteItem
  split
  · exact fun _ => issued_null
  next index _ =>
    intro deleting
    exact deleting.keeps.issued (issued_getItem sound sequence index)

/-! ## Tables and paths -/

theorem issued_setKey (sound : heap.Sound held) {table key value answer : Value}
    (issuedKey : heap.Issued key) (issuedValue : heap.Issued value)
    (done : heap.setKey table key value = .ok (answer, heap')) : heap'.Issued answer := by
  rw [setKey_eq_openKey] at done
  obtain ⟨⟨place, opened⟩, opening, last⟩ := bind_eq_ok.mp done
  rcases opened_openKey sound issuedKey opening with
    ⟨-, rfl, rfl⟩ | ⟨bucket, index, rfl, isOpened⟩
  · obtain ⟨rfl, -⟩ := Prod.mk.inj (Except.ok.inj last)
    exact issued_null
  · exact issued_setItem isOpened.step.sound (isOpened.step.keeps.issued issuedValue) last

theorem issued_childAt (sound : heap.Sound held) (container : Value) (part : String) :
    heap.Issued (heap.childAt container part) := by
  unfold childAt getText
  split
  · split
    · exact issued_getItem sound _ _
    · exact issued_null
  · exact issued_getItem sound _ _
  · exact issued_getItem sound _ _
  · exact issued_null

theorem issued_follow (sound : heap.Sound held) {current : Value} (issued : heap.Issued current)
    (parts : List String) : heap.Issued (heap.follow current parts) := by
  induction parts generalizing current with
  | nil => exact issued
  | cons part rest inductionHypothesis =>
      rw [follow]
      split
      · exact inductionHypothesis (issued_childAt sound current part)
      · exact issued_null

theorem issued_putChild (sound : heap.Sound held) {container value answer : Value} {part : String}
    (issued : heap.Issued value)
    (done : heap.putChild container part value = .ok (answer, heap')) : heap'.Issued answer := by
  unfold Heap.putChild at done
  split at done
  next =>
    have making := Step.scratchString sound part
    exact issued_setKey making.sound (issued_scratchString sound part)
      (making.keeps.issued issued) done
  next => exact issued_setItem sound issued done
  next => exact issued_setItem sound issued done
  next =>
    obtain ⟨rfl, -⟩ := Prod.mk.inj (Except.ok.inj done)
    exact issued_null

theorem issued_storeBelow (sound : heap.Sound held) {current value answer : Value}
    {parts : List String} (issued : heap.Issued value)
    (done : storeBelow current parts value heap = .ok (answer, heap')) : heap'.Issued answer := by
  induction parts generalizing heap current with
  | nil =>
      obtain ⟨rfl, -⟩ := Prod.mk.inj (Except.ok.inj done)
      exact issued_null
  | cons part rest inductionHypothesis =>
      cases place : heap.hasPlaceFor current part with
      | false =>
          simp only [Heap.storeBelow, place] at done
          obtain ⟨rfl, -⟩ := Prod.mk.inj (Except.ok.inj done)
          exact issued_null
      | true =>
          cases rest with
          | nil =>
              simp only [Heap.storeBelow, place, if_true] at done
              exact issued_putChild sound issued done
          | cons following others =>
              rw [Heap.storeBelow] at done
              simp only [place, if_true] at done
              split at done
              next =>
                obtain ⟨⟨stored, between⟩, putting, last⟩ := bind_eq_ok.mp done
                have making := Step.hash sound
                have put := Step.putChild making.sound (issued_create sound _) putting
                apply inductionHypothesis put.sound _ last
                exact put.keeps.issued (making.keeps.issued issued)
              next =>
                split at done
                · exact inductionHypothesis sound issued done
                · obtain ⟨rfl, -⟩ := Prod.mk.inj (Except.ok.inj done)
                  exact issued_null

theorem issued_setPath (sound : heap.Sound held) {root path value answer : Value}
    (issued : heap.Issued value) (done : heap.setPath root path value = .ok (answer, heap')) :
    heap'.Issued answer := by
  obtain ⟨⟨stored, after⟩, storing, last⟩ := bind_eq_ok.mp done
  obtain ⟨rfl, rfl⟩ := Prod.mk.inj (Except.ok.inj last)
  have stepped := Step.storeBelow sound issued storing
  obtain ⟨-, thins⟩ := Thins.unwind stepped.sound heap.scratch.size
  exact thins.issued (issued_storeBelow sound issued storing)

/-! ## Strings -/

theorem issued_split (sound : heap.Sound held) {separator text answer : Value}
    (done : heap.split separator text = .ok (answer, heap')) : heap'.Issued answer := by
  obtain ⟨⟨array, made⟩, making, done⟩ := bind_eq_ok.mp done
  obtain ⟨after, pushing, last⟩ := bind_eq_ok.mp done
  obtain ⟨rfl, rfl⟩ := Prod.mk.inj (Except.ok.inj last)
  have first := Step.array sound making
  obtain ⟨-, -, created⟩ := bind_eq_ok.mp making
  obtain ⟨rfl, rfl⟩ := Prod.mk.inj (Except.ok.inj created)
  have issued := issued_create sound (.array [] : Payload σ)
  exact (Step.pushStrings first.sound issued pushing).keeps.issued issued

theorem issued_join (sound : heap.Sound held) (separator sequence : Value) :
    (heap.join separator sequence).2.Issued (heap.join separator sequence).1 := by
  unfold Heap.join
  split
  · exact issued_create sound _
  · exact issued_create sound _

end CountedHeap.Heap
