import CountedHeap.Proofs.Copies
import CountedHeap.Sequence.Basic
import Mathlib.Data.Multiset.AddSub

/-!
Contract: the operations on arrays and programs are steps that write one sequence at most.

Absent values are counted by nobody, so the ledger may hold any number of them; padding takes
them from there.

Owns: one step for each operation, and what an operation answers as far as others rely on it.
-/

namespace CountedHeap

/-- An item that is replaced leaves the list for the one that takes its place. -/
theorem cons_coe_set {α : Type} {items : List α} {index : Nat} (inside : index < items.length)
    (item : α) :
    items[index] ::ₘ (↑(items.set index item) : Multiset α) = item ::ₘ ↑items := by
  induction items generalizing index with
  | nil => simp at inside
  | cons head rest inductionHypothesis =>
      cases index with
      | zero =>
          simp only [List.getElem_cons_zero, List.set_cons_zero, ← Multiset.cons_coe]
          exact Multiset.cons_swap _ _ _
      | succ index =>
          have tail := inductionHypothesis (Nat.lt_of_succ_lt_succ inside)
          simp only [List.getElem_cons_succ, List.set_cons_succ, ← Multiset.cons_coe]
          rw [Multiset.cons_swap, tail, Multiset.cons_swap]

theorem rotateRight_perm {α : Type} (items : List α) (count : Nat) :
    (items.rotateRight count).Perm items := by
  simp only [List.rotateRight]
  split
  · exact .refl _
  · refine List.perm_append_comm.trans ?_
    rw [List.take_append_drop]

theorem rotateRight_append {α : Type} (front back : List α) :
    (front ++ back).rotateRight back.length = back ++ front := by
  simp only [List.rotateRight]
  split
  next short =>
    rw [List.length_append] at short
    rcases front with _ | ⟨first, rest⟩
    · simp
    · have empty : back = [] := List.length_eq_zero_iff.mp (by simp at short; omega)
      simp [empty]
  next long =>
    rw [List.length_append] at long ⊢
    rcases front with _ | ⟨first, rest⟩
    · simp
    · have small : back.length % ((first :: rest).length + back.length) = back.length :=
        Nat.mod_eq_of_lt (by simp)
      rw [small, Nat.add_sub_cancel, List.drop_left, List.take_left]

theorem bind_eq_ok {α β ε : Type} {first : Except ε α} {next : α → Except ε β} {answer : β} :
    (first >>= next) = .ok answer ↔ ∃ value, first = .ok value ∧ next value = .ok answer := by
  cases first <;> simp [bind, Except.bind]

namespace Heap

variable {σ : Signature} {heap heap' : Heap σ} {held : Multiset Value}

/-! ## Ledgers -/

theorem Sound.null_cons (sound : heap.Sound held) : heap.Sound (.null ::ₘ held) :=
  sound.retain issued_null

/-- Absent values may be entered in the ledger. -/
theorem Sound.add_nulls (sound : heap.Sound held) (count : Nat) :
    heap.Sound (held + ↑(List.replicate count Value.null)) := by
  induction count with
  | zero => simpa using sound
  | succ count inductionHypothesis =>
      rw [List.replicate_succ, ← Multiset.cons_coe, Multiset.add_cons]
      exact inductionHypothesis.null_cons

theorem Step.releaseAll {values : List Value} (sound : heap.Sound (held + ↑values)) :
    Step ∅ True heap (heap.releaseAll values) held := by
  induction values generalizing heap with
  | nil => exact .refl _ _ (by simpa using sound)
  | cons value rest inductionHypothesis =>
      rw [← Multiset.cons_coe, Multiset.add_cons] at sound
      have first := Step.release sound
      exact first.andThen (inductionHypothesis first.sound)

theorem Step.retainAll {values : List Value} (sound : heap.Sound held)
    (issued : ∀ value ∈ values, heap.Issued value) :
    Step ∅ True heap (heap.retainAll values) (held + ↑values) := by
  induction values generalizing heap held with
  | nil => exact .refl _ _ (by simpa using sound)
  | cons value rest inductionHypothesis =>
      obtain ⟨valueIssued, restIssued⟩ := List.forall_mem_cons.mp issued
      have first := Step.retain sound valueIssued
      have rests := inductionHypothesis first.sound
        fun other member => first.keeps.issued (restIssued other member)
      rw [← Multiset.cons_coe, Multiset.add_cons, ← Multiset.cons_add]
      exact first.andThen rests

/-! ## Owning lists -/

theorem Step.ownAll {values : List Value} (sound : heap.Sound held)
    (issued : ∀ value ∈ values, heap.Issued value) :
    Step ∅ True heap (ownAll values heap).2 (held + ↑(Heap.ownAll values heap).1) ∧
      ∀ owned ∈ (Heap.ownAll values heap).1, owned.isScratch = false := by
  induction values generalizing heap held with
  | nil => exact ⟨.refl _ _ (by simpa [Heap.ownAll] using sound), by simp [Heap.ownAll]⟩
  | cons value rest inductionHypothesis =>
      obtain ⟨valueIssued, restIssued⟩ := List.forall_mem_cons.mp issued
      have owning := Step.own sound valueIssued
      have owned := owned_own sound valueIssued
      have retaining := Step.retain owning.sound owned.issued
      have first := owning.andThen retaining
      obtain ⟨rests, durable⟩ := inductionHypothesis first.sound
        fun other member => first.keeps.issued (restIssued other member)
      simp only [Heap.ownAll]
      refine ⟨?_, List.forall_mem_cons.mpr ⟨owned.durable, durable⟩⟩
      rw [← Multiset.cons_coe, Multiset.add_cons, ← Multiset.cons_add]
      exact first.andThen rests

theorem length_ownAll (values : List Value) (heap : Heap σ) :
    (ownAll values heap).1.length = values.length := by
  induction values generalizing heap with
  | nil => rfl
  | cons value rest inductionHypothesis =>
      simp only [ownAll, List.length_cons]
      rw [inductionHypothesis]

theorem Step.arrayOf {items : List Value} (sound : heap.Sound held)
    (issued : ∀ item ∈ items, heap.Issued item) :
    Step ∅ True heap (heap.arrayOf items).2 held := by
  obtain ⟨owning, durable⟩ := Step.ownAll sound issued
  exact owning.andThen (.create owning.sound durable (by simp))

theorem Step.program {items : List Value} (sound : heap.Sound held)
    (issued : ∀ item ∈ items, heap.Issued item) :
    Step ∅ True heap (heap.program items).2 held := by
  obtain ⟨owning, durable⟩ := Step.ownAll sound issued
  exact owning.andThen (.create owning.sound durable (by simp))

/-- Making a cell without children. -/
theorem Step.createSingle {payload : Payload σ} (sound : heap.Sound held)
    (childless : payload.children = [])
    (empty : ∀ content, payload = .hash content → content = {}) :
    Step ∅ True heap (heap.create payload).2 held :=
  .create (by simpa [childless] using sound) (by simp [childless]) empty

theorem issued_create (sound : heap.Sound held) (payload : Payload σ) :
    (heap.create payload).2.Issued (heap.create payload).1 :=
  issued_create_self sound.toConsistent payload

theorem Step.closure {name : σ.Closure} {auxiliary : Value} (sound : heap.Sound held)
    (issued : heap.Issued auxiliary) :
    Step ∅ True heap (heap.closure name auxiliary).2 held := by
  have making : Step ∅ True heap (heap.create (.exec (.closure name))).2 held :=
    .createSingle sound rfl (by simp)
  exact making.andThen (.program making.sound (List.forall_mem_cons.mpr
    ⟨issued_create sound _, List.forall_mem_singleton.mpr (making.keeps.issued issued)⟩))

/-! ## Gaps -/

theorem items?_setChildren {sequence : Value} {items items' : List Value}
    (found : heap.items? sequence = some items) :
    (heap.setChildren sequence items').items? sequence = some items' := by
  rw [setChildren_eq_setPayload, Heap.items?, payload_setPayload,
    if_pos ⟨rfl, isLive_of_items? found⟩]
  rcases payload_of_items? found with array | program
  · rw [array]; rfl
  · rw [program]; rfl

theorem items?_retainAll (heap : Heap σ) (values : List Value) (sequence : Value) :
    (heap.retainAll values).items? sequence = heap.items? sequence :=
  congrArg Payload.items? (payload_retainAll heap values sequence)

theorem items?_releaseAll (heap : Heap σ) (values : List Value) (sequence : Value) :
    (heap.releaseAll values).items? sequence = heap.items? sequence :=
  congrArg Payload.items? (payload_releaseAll heap values sequence)

theorem durable_items (sound : heap.Sound held) {sequence item : Value} {items : List Value}
    (found : heap.items? sequence = some items) (member : item ∈ items) :
    item.isScratch = false :=
  sound.durable (by rwa [children_of_items? found] : item ∈ heap.children sequence)

theorem issued_items (sound : heap.Sound held) {sequence item : Value} {items : List Value}
    (found : heap.items? sequence = some items) (member : item ∈ items) : heap.Issued item :=
  sound.issued_child (by rwa [children_of_items? found] : item ∈ heap.children sequence)

/-- The items are permuted, and absent values come in. -/
theorem Step.padItems (sound : heap.Sound held) {sequence : Value} {items items' : List Value}
    (found : heap.items? sequence = some items) {count : Nat}
    (perm : items'.Perm (items ++ List.replicate count .null)) :
    Step {sequence} (¬heap.IsBucket sequence) heap (heap.setChildren sequence items') held := by
  refine (Step.setItems (sound.add_nulls count) found ?_ fun value member => ?_)
  · rw [Multiset.coe_eq_coe.mpr perm, ← Multiset.coe_add]
    abel
  · rcases List.mem_append.mp (perm.subset member) with old | absent
    · exact .inl old
    · rw [List.eq_of_mem_replicate absent]
      exact .inr rfl

theorem Step.expandItems (sound : heap.Sound held) {sequence : Value} {offset : Int}
    {count : Nat} {answer : Bool}
    (done : heap.expandItems sequence offset count = .ok (answer, heap')) :
    Step {sequence} (¬heap.IsBucket sequence) heap heap' held := by
  unfold Heap.expandItems at done
  split at done
  next =>
    obtain ⟨-, rfl⟩ := Prod.mk.inj (Except.ok.inj done)
    exact .refl _ _ sound
  next items found =>
    split at done
    next =>
      obtain ⟨-, rfl⟩ := Prod.mk.inj (Except.ok.inj done)
      exact .refl _ _ sound
    next index _ =>
      obtain ⟨reached, padded, done⟩ := bind_eq_ok.mp done
      obtain ⟨grown, paddedAgain, done⟩ := bind_eq_ok.mp done
      obtain ⟨-, rfl⟩ := Prod.mk.inj (Except.ok.inj done)
      have reachedEqual := (padTo_eq_ok_iff.mp padded).2
      have grownEqual := (padTo_eq_ok_iff.mp paddedAgain).2
      have grownWhole : grown = items ++ List.replicate
          (index - items.length + (reached.length + count - reached.length)) .null := by
        rw [List.replicate_add, ← List.append_assoc, ← reachedEqual, ← grownEqual]
      have rotated : (grown.take index ++ (grown.drop index).rotateRight count).Perm grown :=
        ((rotateRight_perm _ _).append_left _).trans (by rw [List.take_append_drop])
      exact .padItems sound found (rotated.trans (by rw [grownWhole]))

theorem Step.collapseItems (sound : heap.Sound held) (sequence : Value) (offset : Int)
    (count : Nat) :
    Step {sequence} (¬heap.IsBucket sequence) heap
      (heap.collapseItems sequence offset count).2 held := by
  unfold Heap.collapseItems
  split
  next => exact .refl _ _ sound
  next items found =>
    split
    next => exact .refl _ _ sound
    next index _ =>
      have parts : items = items.take index ++ ((items.drop index).take count ++
          items.drop (index + count)) := by
        rw [← List.drop_drop, List.take_append_drop, List.take_append_drop]
      have closing : Step {sequence} (¬heap.IsBucket sequence) heap
          (heap.setChildren sequence (items.take index ++ items.drop (index + count)))
          (held + ↑((items.drop index).take count)) := by
        refine Step.setItems sound found ?_ fun value member => .inl ?_
        · conv => lhs; rw [parts]
          simp only [← Multiset.coe_add]
          abel
        · rw [parts]
          rcases List.mem_append.mp member with front | back
          · exact List.mem_append_left _ front
          · exact List.mem_append_right _ (List.mem_append_right _ back)
      exact closing.andThen (Step.releaseAll closing.sound).weaken

/-! ## Single elements -/

/-- Some element of a padded list makes room for another, which is retained before it is stored:
retaining it afterwards, as the operation does, comes to the same. -/
theorem Step.replaceItem (sound : heap.Sound held) {sequence element : Value}
    {items reached : List Value} (found : heap.items? sequence = some items) {count : Nat}
    (padded : reached = items ++ List.replicate count .null) {index : Nat}
    (inside : index < reached.length) (issued : heap.Issued element)
    (durable : element.isScratch = false) :
    Step {sequence} (¬heap.IsBucket sequence) heap
      (heap.replaceItem sequence reached index element).2 held := by
  have retaining := Step.retain sound issued
  have retainedFound : (heap.retain element).items? sequence = some items := by
    rw [Heap.items?, payload_retain]
    exact found
  have storing : Step {sequence} (¬(heap.retain element).IsBucket sequence)
      (heap.retain element) ((heap.retain element).setChildren sequence (reached.set index element))
      (reached[index] ::ₘ held) := by
    refine Step.setItems (retaining.sound.add_nulls count) retainedFound ?_
      fun value member => ?_
    · have moved := cons_coe_set inside element
      have whole : (↑reached : Multiset Value) = ↑items + ↑(List.replicate count Value.null) := by
        rw [padded, Multiset.coe_add]
      have total := congrArg (held + ·) moved
      simp only [whole, Multiset.add_cons] at total
      rw [Multiset.cons_add, Multiset.cons_add, Multiset.cons_add, total]
      congr 1
      abel
    · rcases List.mem_or_eq_of_mem_set member with old | rfl
      · rw [padded] at old
        rcases List.mem_append.mp old with old | absent
        · exact .inl old
        · rw [List.eq_of_mem_replicate absent]
          exact .inr rfl
      · exact .inr durable
  have swap : (heap.setChildren sequence (reached.set index element)).retain element =
      (heap.retain element).setChildren sequence (reached.set index element) := by
    rw [setChildren_eq_setPayload, setChildren_eq_setPayload, retain_setPayload, payload_retain]
  have previous : reached[index]?.getD .null = reached[index] := by
    rw [List.getElem?_eq_getElem inside, Option.getD_some]
  simp only [Heap.replaceItem, swap, previous]
  have issuedSequence := sound.toConsistent.issued (isLive_of_items? found)
  have stored := retaining.weaken.trans storing (fun _ _ => id)
    (retaining.keeps.not_isBucket issuedSequence)
  exact stored.andThen (Step.release stored.sound).weaken

theorem items?_of_itemPosition? {sequence : Value} {offset : Int} {index : Nat}
    (found : heap.itemPosition? sequence offset = some index) :
    ∃ items, heap.items? sequence = some items ∧ position? items.length offset = some index :=
  Option.bind_eq_some_iff.mp found

theorem Step.setItem (sound : heap.Sound held) {sequence element answer : Value} {offset : Int}
    (issued : heap.Issued element)
    (done : heap.setItem sequence element offset = .ok (answer, heap')) :
    Step {sequence} (¬heap.IsBucket sequence) heap heap' held := by
  unfold Heap.setItem at done
  split at done
  next =>
    obtain ⟨-, rfl⟩ := Prod.mk.inj (Except.ok.inj done)
    exact .refl _ _ sound
  next index found =>
    obtain ⟨items, itemsFound, -⟩ := items?_of_itemPosition? found
    have issuedSequence := sound.toConsistent.issued (isLive_of_items? itemsFound)
    have owning := Step.own sound issued
    have owned := owned_own sound issued
    revert owning owned done
    generalize heap.own element = result
    obtain ⟨stored, heap₁⟩ := result
    intro done owning owned
    simp only at done
    split at done
    next =>
      obtain ⟨-, rfl⟩ := Prod.mk.inj (Except.ok.inj done)
      exact owning.weaken
    next items₁ found₁ =>
      obtain ⟨reached, padded, done⟩ := bind_eq_ok.mp done
      have reachedEqual := (padTo_eq_ok_iff.mp padded).2
      have inside : index < reached.length := by
        rw [length_padTo padded]
        omega
      have replacing := Step.replaceItem owning.sound found₁ reachedEqual inside owned.issued
        owned.durable
      rw [Except.ok.inj done] at replacing
      exact owning.weaken.trans replacing (fun _ _ => id)
        (owning.keeps.not_isBucket issuedSequence)

theorem Step.insertItem (sound : heap.Sound held) {sequence element answer : Value}
    {offset : Int} (issued : heap.Issued element)
    (done : heap.insertItem sequence element offset = .ok (answer, heap')) :
    Step {sequence} (¬heap.IsBucket sequence) heap heap' held := by
  unfold Heap.insertItem at done
  split at done
  next =>
    obtain ⟨-, rfl⟩ := Prod.mk.inj (Except.ok.inj done)
    exact .refl _ _ sound
  next index found =>
    obtain ⟨items, itemsFound, -⟩ := items?_of_itemPosition? found
    have issuedSequence := sound.toConsistent.issued (isLive_of_items? itemsFound)
    have owning := Step.own sound issued
    have owned := owned_own sound issued
    revert owning owned done
    generalize heap.own element = result
    obtain ⟨stored, heap₁⟩ := result
    intro done owning owned
    simp only at done
    obtain ⟨⟨opened, heap₂⟩, expanded, done⟩ := bind_eq_ok.mp done
    obtain ⟨⟨previous, heap₃⟩, written, done⟩ := bind_eq_ok.mp done
    obtain ⟨-, rfl⟩ := Prod.mk.inj (Except.ok.inj done)
    have expanding := Step.expandItems owning.sound expanded
    have opening := owning.weaken.trans expanding (fun _ _ => id)
      (owning.keeps.not_isBucket issuedSequence)
    exact opening.trans (.setItem opening.sound (expanding.keeps.issued owned.issued) written)
      (fun _ _ => id) (opening.keeps.not_isBucket issuedSequence)

theorem Step.deleteItem (sound : heap.Sound held) (sequence : Value) (offset : Int) :
    Step {sequence} (¬heap.IsBucket sequence) heap (heap.deleteItem sequence offset).2 held := by
  unfold Heap.deleteItem
  split
  next => exact .refl _ _ sound
  next index _ => exact .collapseItems sound sequence index 1

theorem Step.evictItems (sound : heap.Sound held) {sequence : Value}
    (issued : heap.Issued sequence) (count : Nat) (evicted : Value) :
    Step {sequence} (¬heap.IsBucket sequence) heap
      (Heap.evictItems sequence count evicted heap).2 held := by
  induction count generalizing heap evicted with
  | zero => exact .refl _ _ sound
  | succ count inductionHypothesis =>
      have deleting := Step.deleteItem sound sequence 0
      simp only [Heap.evictItems]
      exact deleting.trans
        (inductionHypothesis deleting.sound (deleting.keeps.issued issued) _) (fun _ _ => id)
        (deleting.keeps.not_isBucket issued)

theorem Step.queueItem (sound : heap.Sound held) {sequence element answer : Value}
    {capacity : Nat} (issued : heap.Issued element)
    (done : heap.queueItem sequence element capacity = .ok (answer, heap')) :
    Step {sequence} (¬heap.IsBucket sequence) heap heap' held := by
  unfold Heap.queueItem at done
  split at done
  next =>
    obtain ⟨-, rfl⟩ := Prod.mk.inj (Except.ok.inj done)
    exact .refl _ _ sound
  next items found =>
    have issuedSequence := sound.toConsistent.issued (isLive_of_items? found)
    split at done
    next =>
      obtain ⟨-, rfl⟩ := Prod.mk.inj (Except.ok.inj done)
      exact .refl _ _ sound
    next =>
      have evicting := Step.evictItems sound issuedSequence (items.length + 1 - capacity) .null
      obtain ⟨⟨pushed, heap₁⟩, pushing, done⟩ := bind_eq_ok.mp done
      obtain ⟨-, rfl⟩ := Prod.mk.inj (Except.ok.inj done)
      exact evicting.trans
        (.insertItem evicting.sound (evicting.keeps.issued issued) pushing) (fun _ _ => id)
        (evicting.keeps.not_isBucket issuedSequence)

/-! ## Ranges -/

theorem Step.sliceItems (sound : heap.Sound held) (sequence : Value) (offset : Int)
    (count : Nat) : Step ∅ True heap (heap.sliceItems sequence offset count).2 held := by
  unfold Heap.sliceItems
  split
  next => exact .refl _ _ sound
  next items found =>
    split
    next => exact .arrayOf sound (by simp)
    next index _ =>
      exact .arrayOf sound fun item member =>
        issued_items sound found (List.mem_of_mem_drop (List.mem_of_mem_take member))

theorem Step.setItemsFrom (sound : heap.Sound held) {sequence : Value}
    (issuedSequence : heap.Issued sequence) {index : Nat} {values : List Value}
    (issued : ∀ value ∈ values, heap.Issued value)
    (done : setItemsFrom sequence index values heap = .ok heap') :
    Step {sequence} (¬heap.IsBucket sequence) heap heap' held := by
  induction values generalizing heap index with
  | nil =>
      obtain rfl := Except.ok.inj done
      exact .refl _ _ sound
  | cons value rest inductionHypothesis =>
      obtain ⟨valueIssued, restIssued⟩ := List.forall_mem_cons.mp issued
      obtain ⟨⟨previous, heap₁⟩, written, done⟩ := bind_eq_ok.mp done
      have writing := Step.setItem sound valueIssued written
      exact writing.trans
        (inductionHypothesis writing.sound (writing.keeps.issued issuedSequence)
          (fun other member => writing.keeps.issued (restIssued other member)) done)
        (fun _ _ => id) (writing.keeps.not_isBucket issuedSequence)

theorem Step.spliceItems (sound : heap.Sound held) {sequence answer : Value} {offset : Int}
    {count : Nat} {inserted : List Value} (issued : ∀ value ∈ inserted, heap.Issued value)
    (done : heap.spliceItems sequence offset count inserted = .ok (answer, heap')) :
    Step {sequence} (¬heap.IsBucket sequence) heap heap' held := by
  unfold Heap.spliceItems at done
  split at done
  next =>
    obtain ⟨-, rfl⟩ := Prod.mk.inj (Except.ok.inj done)
    exact .refl _ _ sound
  next index found =>
    obtain ⟨items, itemsFound, -⟩ := items?_of_itemPosition? found
    have issuedSequence := sound.toConsistent.issued (isLive_of_items? itemsFound)
    have slicing := Step.sliceItems sound sequence index count
    have collapsing := Step.collapseItems slicing.sound sequence index count
    have closing := slicing.weaken.trans collapsing (fun _ _ => id)
      (slicing.keeps.not_isBucket issuedSequence)
    obtain ⟨⟨opened, heap₁⟩, expanded, done⟩ := bind_eq_ok.mp done
    obtain ⟨heap₂, written, done⟩ := bind_eq_ok.mp done
    obtain ⟨-, rfl⟩ := Prod.mk.inj (Except.ok.inj done)
    have opening := closing.trans (.expandItems closing.sound expanded) (fun _ _ => id)
      (closing.keeps.not_isBucket issuedSequence)
    exact opening.trans
      (.setItemsFrom opening.sound (opening.keeps.issued issuedSequence)
        (fun value member => opening.keeps.issued (issued value member)) written)
      (fun _ _ => id) (opening.keeps.not_isBucket issuedSequence)

theorem Step.reverseItems (sound : heap.Sound held) (sequence : Value) :
    Step {sequence} (¬heap.IsBucket sequence) heap (heap.reverseItems sequence).2 held := by
  unfold Heap.reverseItems
  split
  next => exact .refl _ _ sound
  next items found =>
    refine Step.setItems sound found ?_ fun value member => .inl (List.mem_reverse.mp member)
    rw [Multiset.coe_eq_coe.mpr (List.reverse_perm items)]

/-! ## Writes inside an array, exactly -/

/-- Opening a gap of one pair inside an array. -/
theorem expandItems_of_payload {sequence : Value} {before after : List Value} {answer : Bool}
    (content : heap.payload sequence = .array (before ++ after))
    (done : heap.expandItems sequence before.length 2 = .ok (answer, heap')) :
    heap' = heap.setChildren sequence (before ++ .null :: .null :: after) := by
  have found : heap.items? sequence = some (before ++ after) := by
    rw [items?, content]
    rfl
  simp only [expandItems, found, position?_ofNat] at done
  rw [padTo_of_le (by simp)] at done
  obtain ⟨reached, padded, done⟩ := bind_eq_ok.mp done
  obtain rfl := Except.ok.inj padded
  obtain ⟨grown, paddedAgain, done⟩ := bind_eq_ok.mp done
  obtain ⟨-, rfl⟩ := Prod.mk.inj (Except.ok.inj done)
  have grownEqual := (padTo_eq_ok_iff.mp paddedAgain).2
  have gap : (before ++ after).length + 2 - (before ++ after).length = 2 := by omega
  rw [gap, List.append_assoc] at grownEqual
  have rotated : (after ++ List.replicate 2 Value.null).rotateRight 2 =
      List.replicate 2 .null ++ after :=
    rotateRight_append after (List.replicate 2 .null)
  rw [grownEqual, List.take_left, List.drop_left, rotated]
  rfl

theorem replaceItem_of_payload {sequence : Value} {items : List Value} {index : Nat}
    (element : Value) (content : heap.payload sequence = .array items)
    (inside : index < items.length) :
    (heap.replaceItem sequence items index element).1 = items[index] ∧
      (heap.replaceItem sequence items index element).2.payload sequence =
        .array (items.set index element) ∧
      ∀ other, (heap.replaceItem sequence items index element).2.table? other =
        heap.table? other := by
  have found : heap.items? sequence = some items := by
    rw [items?, content]
    rfl
  refine ⟨by simp [replaceItem, inside], ?_, fun other => ?_⟩
  · simp only [replaceItem]
    rw [payload_release, payload_retain, setChildren_eq_setPayload, payload_setPayload,
      if_pos ⟨rfl, isLive_of_items? found⟩, content]
    rfl
  · simp only [replaceItem]
    rw [table?, payload_release, payload_retain, ← table?, table?_setChildren found]

/-- An element is stored at a place that exists: it is owned, and then takes the place of
another. -/
structure Stored (heap heap' : Heap σ) (held : Multiset Value) (sequence element answer : Value)
    (items : List Value) (index : Nat) : Prop where
  owned : Owned heap (heap.own element).2 element (heap.own element).1
  owning : Step ∅ True heap (heap.own element).2 held
  kept : (heap.own element).2.payload sequence = .array items
  replacing : Step {sequence} (¬(heap.own element).2.IsBucket sequence)
    (heap.own element).2 heap' held
  previous : items[index]? = some answer
  payload : heap'.payload sequence = .array (items.set index (heap.own element).1)
  tables : ∀ other, heap'.table? other = (heap.own element).2.table? other

theorem stored_setItem (sound : heap.Sound held) {sequence element answer : Value}
    {items : List Value} {index : Nat} (content : heap.payload sequence = .array items)
    (inside : index < items.length) (issued : heap.Issued element)
    (done : heap.setItem sequence element index = .ok (answer, heap')) :
    Stored heap heap' held sequence element answer items index := by
  have found : heap.items? sequence = some items := by
    rw [items?, content]
    rfl
  have issuedSequence := sound.toConsistent.issued (isLive_of_items? found)
  have owning := Step.own sound issued
  have owned := owned_own sound issued
  have kept : (heap.own element).2.payload sequence = .array items := by
    rw [owning.keeps.payload issuedSequence fun none => none.elim, content]
  have keptFound : (heap.own element).2.items? sequence = some items := by
    rw [items?, kept]
    rfl
  simp only [setItem, itemPosition?, found, position?_ofNat, bind, Option.bind, keptFound] at done
  rw [padTo_of_le (show index + 1 ≤ items.length by omega)] at done
  have replaced := Except.ok.inj done
  have replacing := Step.replaceItem owning.sound keptFound
    (by simp : items = items ++ List.replicate 0 .null) inside owned.issued owned.durable
  obtain ⟨previous, payload, tables⟩ := replaceItem_of_payload (heap.own element).1 kept inside
  rw [replaced] at replacing previous payload tables
  exact ⟨owned, owning, kept, replacing, by rw [List.getElem?_eq_getElem inside, ← previous],
    payload, tables⟩

/-- Closing a gap of one pair inside an array. -/
theorem collapseItems_of_payload {sequence first second : Value} {before after : List Value}
    (content : heap.payload sequence = .array (before ++ first :: second :: after)) :
    (heap.collapseItems sequence before.length 2).2.payload sequence = .array (before ++ after) ∧
      ∀ other, (heap.collapseItems sequence before.length 2).2.table? other =
        heap.table? other := by
  have found : heap.items? sequence = some (before ++ first :: second :: after) := by
    rw [items?, content]
    rfl
  simp only [collapseItems, found, position?_ofNat]
  refine ⟨?_, fun other => ?_⟩
  · rw [payload_releaseAll, setChildren_eq_setPayload, payload_setPayload,
      if_pos ⟨rfl, isLive_of_items? found⟩, content, List.take_left, ← List.drop_drop,
      List.drop_left]
    rfl
  · rw [table?, payload_releaseAll, ← table?, table?_setChildren found]

/-! ## Tables that come into being -/

theorem table?_expandItems {sequence : Value} {offset : Int} {count : Nat} {answer : Bool}
    (done : heap.expandItems sequence offset count = .ok (answer, heap')) (other : Value) :
    heap'.table? other = heap.table? other := by
  unfold expandItems at done
  split at done
  next =>
    obtain ⟨-, rfl⟩ := Prod.mk.inj (Except.ok.inj done)
    rfl
  next items found =>
    split at done
    next =>
      obtain ⟨-, rfl⟩ := Prod.mk.inj (Except.ok.inj done)
      rfl
    next index _ =>
      obtain ⟨reached, -, done⟩ := bind_eq_ok.mp done
      obtain ⟨grown, -, done⟩ := bind_eq_ok.mp done
      obtain ⟨-, rfl⟩ := Prod.mk.inj (Except.ok.inj done)
      exact table?_setChildren found _ other

end Heap

end CountedHeap
