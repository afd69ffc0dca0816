import CountedHeap.Proofs.Runs
import CountedHeap.Proofs.Scripts
import Mathlib.Data.List.Forall2

/-!
Contract: arrays and programs are lists.

Each operation on a sequence is an operation on the list of its items.  It succeeds if there is
room for the list that it leaves, and nothing else that was ever issued changes what it holds.
The elements may be any handles, forged ones too; what is stored of them is what owning answers.

Owns:
- positions as the offsets mean them, and room for a list;
- `Rewrites`, what a change of the items of one sequence leaves alone;
- every operation on a sequence as one on lists, and what misses.

Does not own: the reference counts.
-/

namespace CountedHeap

/-- The position of an offset: itself, or counted from the end if it is negative. -/
theorem position?_eq (length : Nat) (offset : Int) :
    position? length offset =
      if 0 ≤ offset then some offset.toNat
      else if 0 ≤ length + offset then some (length + offset).toNat else none := by
  unfold position?
  by_cases negative : 0 ≤ offset
  · rw [if_pos negative, if_pos negative]
  · rw [if_neg negative, if_neg negative]
    by_cases reaches : offset.natAbs ≤ length
    · rw [if_pos reaches, if_pos (by omega)]
      congr 1
      omega
    · rw [if_neg reaches, if_neg (by omega)]

/-- There is room for a list of this length in the place of the items. -/
def Fits (items : List Value) (length : Nat) : Prop :=
  length ≤ items.length ∨ length ≤ elementLimit

/-- The items, and absent values up to a length. -/
def padded (length : Nat) (items : List Value) : List Value :=
  items ++ List.replicate (length - items.length) .null

theorem padTo_of_fits {items : List Value} {length : Nat} (fits : Fits items length) :
    padTo length items = .ok (padded length items) :=
  padTo_eq_ok_iff.mpr ⟨fits, rfl⟩

theorem padded_of_le {items : List Value} {length : Nat} (enough : length ≤ items.length) :
    padded length items = items := by
  rw [padded, Nat.sub_eq_zero_of_le enough, List.replicate_zero, List.append_nil]

@[simp] theorem length_padded (length : Nat) (items : List Value) :
    (padded length items).length = max items.length length := by
  rw [padded, List.length_append, List.length_replicate]
  omega

/-- Padding is not seen by a lookup that answers the absent value on a miss. -/
theorem getD_padded (length : Nat) (items : List Value) (index : Nat) :
    (padded length items)[index]?.getD .null = items[index]?.getD .null := by
  rw [padded]
  by_cases inside : index < items.length
  · rw [List.getElem?_append_left inside]
  · rw [List.getElem?_append_right (Nat.le_of_not_lt inside),
      List.getElem?_eq_none (Nat.le_of_not_lt inside), List.getElem?_replicate]
    split <;> rfl

theorem drop_padded (length : Nat) (items : List Value) :
    (padded length items).drop length = items.drop length := by
  rw [padded, List.drop_append, List.drop_replicate, Nat.sub_self, List.replicate_zero,
    List.append_nil]

/-- A list from which a range is cut, seen from the beginning of the range. -/
theorem take_padded_cut (items : List Value) (index count : Nat) :
    (padded index (items.take index ++ items.drop (index + count))).take index =
      (padded index items).take index := by
  by_cases inside : index ≤ items.length
  · have front : (items.take index).length = index := List.length_take_of_le inside
    rw [padded_of_le inside, padded_of_le (by rw [List.length_append, front]; omega),
      List.take_left' front]
  · rw [List.take_of_length_le (by omega : items.length ≤ index),
      List.drop_eq_nil_of_le (by omega), List.append_nil]

theorem drop_cut (items : List Value) (index count : Nat) :
    (items.take index ++ items.drop (index + count)).drop index = items.drop (index + count) := by
  by_cases inside : index ≤ items.length
  · rw [List.drop_left' (List.length_take_of_le inside)]
  · rw [List.take_of_length_le (by omega : items.length ≤ index),
      List.drop_eq_nil_of_le (by omega : items.length ≤ index + count), List.append_nil,
      List.drop_eq_nil_of_le (by omega)]

theorem Payload.withChildren_withChildren (children children' : List Value)
    {σ : Signature} (payload : Payload σ) :
    (payload.withChildren children).withChildren children' = payload.withChildren children' := by
  cases payload <;> rfl

namespace Heap

variable {σ : Signature} {heap heap' heap'' : Heap σ} {sequence : Value}
  {items items' items'' : List Value}

/-- The items of one sequence are replaced.  Every other handle that was issued names what it
did. -/
structure Rewrites (heap heap' : Heap σ) (sequence : Value) (items' : List Value) : Prop where
  consistent : heap'.Consistent
  hashBuckets : heap'.config.hashBuckets = heap.config.hashBuckets
  issued : ∀ {value}, heap.Issued value → heap'.Issued value
  live : ∀ {value}, heap.Issued value → heap'.isLive value = heap.isLive value
  payload : heap'.payload sequence = (heap.payload sequence).withChildren items'
  others : ∀ {value}, heap.Issued value → value ≠ sequence →
    heap'.payload value = heap.payload value

theorem Rewrites.items? (rewrites : Rewrites heap heap' sequence items')
    (found : heap.items? sequence = some items) : heap'.items? sequence = some items' := by
  rw [Heap.items?, rewrites.payload]
  rcases payload_of_items? found with array | program
  · rw [array]; rfl
  · rw [program]; rfl

theorem Rewrites.trans (first : Rewrites heap heap' sequence items')
    (second : Rewrites heap' heap'' sequence items'') : Rewrites heap heap'' sequence items'' where
  consistent := second.consistent
  hashBuckets := second.hashBuckets.trans first.hashBuckets
  issued := fun issued => second.issued (first.issued issued)
  live := fun issued => (second.live (first.issued issued)).trans (first.live issued)
  payload := by rw [second.payload, first.payload, Payload.withChildren_withChildren]
  others := fun issued different =>
    (second.others (first.issued issued) different).trans (first.others issued different)

/-- What only makes cells leaves the items. -/
theorem Grows.rewrites (grows : Grows heap heap') (consistent : heap.Consistent)
    (consistent' : heap'.Consistent) (found : heap.items? sequence = some items) :
    Rewrites heap heap' sequence items where
  consistent := consistent'
  hashBuckets := grows.hashBuckets
  issued := grows.issued
  live := grows.live
  payload := by
    rw [grows.payload (consistent.issued (isLive_of_items? found)), ← children_of_items? found,
      Heap.children, Payload.withChildren_children]
  others := fun issued _ => grows.payload issued

theorem Rewrites.setItems (consistent : heap.Consistent)
    (found : heap.items? sequence = some items) (items' : List Value) :
    Rewrites heap (heap.setChildren sequence items') sequence items' := by
  rw [setChildren_eq_setPayload]
  refine ⟨consistent.modifyCell _ _, by rw [Heap.setPayload, config_modifyCell],
    (issued_setPayload _ _ _).mpr, fun _ => isLive_setPayload _ _ _, ?_,
    fun {value} _ different => ?_⟩
  · rw [payload_setPayload, if_pos ⟨rfl, isLive_of_items? found⟩]
  · rw [payload_setPayload, if_neg fun both => different both.1]

theorem Rewrites.retain (consistent : heap.Consistent)
    (found : heap.items? sequence = some items) (value : Value) :
    Rewrites heap (heap.retain value) sequence items :=
  (Grows.retain heap value).rewrites consistent (consistent.modifyCell _ _) found

theorem Grows.release (heap : Heap σ) (value : Value) : Grows heap (heap.release value) where
  hashBuckets := by rw [Heap.release, config_modifyCell]
  issued := (issued_release value _).mpr
  live := fun _ => isLive_release value _
  payload := fun _ => payload_release heap value _

theorem Rewrites.releaseAll (consistent : heap.Consistent)
    (found : heap.items? sequence = some items) (values : List Value) :
    Rewrites heap (heap.releaseAll values) sequence items := by
  induction values generalizing heap with
  | nil => exact (Grows.refl heap).rewrites consistent consistent found
  | cons value rest inductionHypothesis =>
      have first := (Grows.release heap value).rewrites consistent (consistent.modifyCell _ _) found
      exact first.trans (inductionHypothesis first.consistent (first.items? found))

/-! ## Owning -/

theorem Consistent.own (consistent : heap.Consistent) (value : Value) :
    (heap.own value).2.Consistent := by
  unfold Heap.own
  split
  next =>
    obtain ⟨depth, -, copying⟩ := heap.exists_clone_eq value
    rw [copying]
    exact (growing_cloneWithin (depth + 1) [] value consistent).1
  next => exact consistent

theorem Grows.own (consistent : heap.Consistent) (value : Value) :
    Grows heap (heap.own value).2 := by
  unfold Heap.own
  split
  next => exact .clone consistent value
  next => exact .refl heap

/-- Owning an element does not change a sequence. -/
theorem Rewrites.own (consistent : heap.Consistent) (found : heap.items? sequence = some items)
    (value : Value) : Rewrites heap (heap.own value).2 sequence items :=
  (Grows.own consistent value).rewrites consistent (consistent.own value) found

theorem grows_ownAll (consistent : heap.Consistent) (values : List Value) :
    (ownAll values heap).2.Consistent ∧ Grows heap (ownAll values heap).2 := by
  induction values generalizing heap with
  | nil => exact ⟨consistent, .refl heap⟩
  | cons value rest inductionHypothesis =>
      obtain ⟨last, others⟩ := inductionHypothesis
        ((consistent.own value).modifyCell (heap.own value).1
          fun cell => { cell with refs := cell.refs + 1 })
      exact ⟨last, ((Grows.own consistent value).trans (.retain _ _)).trans others⟩

/-- Long-lived values are their own copies. -/
theorem ownAll_of_durable {values : List Value} (durable : ∀ value ∈ values,
    value.isScratch = false) (heap : Heap σ) : (ownAll values heap).1 = values := by
  induction values generalizing heap with
  | nil => rfl
  | cons value rest inductionHypothesis =>
      obtain ⟨first, others⟩ := List.forall_mem_cons.mp durable
      simp only [ownAll, own_of_not_isScratch first, inductionHypothesis others]

/-- A new array with these items, and whatever owning them makes. -/
structure Makes (heap heap' : Heap σ) (array : Value) (items : List Value) : Prop
    extends Grows heap heap' where
  consistent : heap'.Consistent
  fresh : ¬heap.Issued array
  content : heap'.payload array = .array items

theorem makes_arrayOf (consistent : heap.Consistent) {values : List Value}
    (durable : ∀ value ∈ values, value.isScratch = false) :
    Makes heap (heap.arrayOf values).2 (heap.arrayOf values).1 values := by
  obtain ⟨owned, growing⟩ := grows_ownAll consistent values
  have same := ownAll_of_durable durable heap
  unfold arrayOf
  revert owned growing same
  generalize ownAll values heap = result
  obtain ⟨stored, after⟩ := result
  rintro owned growing rfl
  refine ⟨growing.trans (.create owned _), owned.create _, fun issued => ?_,
    payload_create_self owned _⟩
  exact not_issued_create owned _ (growing.issued issued)

/-! ## Gaps -/

/-- The list that is left by opening a gap. -/
theorem expandItems_eq (found : heap.items? sequence = some items) {offset : Int}
    {index count : Nat} (position : position? items.length offset = some index)
    (fits : Fits items (max items.length index + count)) :
    heap.expandItems sequence offset count =
      .ok (true, heap.setChildren sequence ((padded index items).take index ++
        List.replicate count .null ++ items.drop index)) := by
  have reached : Fits items index := fits.imp (by omega) (by omega)
  have grown : Fits (padded index items) ((padded index items).length + count) := by
    unfold Fits
    rw [length_padded]
    exact fits.imp (by omega) id
  have whole : padded ((padded index items).length + count) (padded index items) =
      padded index items ++ List.replicate count .null := by
    rw [padded, Nat.add_sub_cancel_left]
  have inside : index ≤ (padded index items).length := by
    rw [length_padded]
    omega
  simp only [expandItems, found, position, padTo_of_fits reached, padTo_of_fits grown, bind,
    Except.bind, whole, List.take_append_of_le_length inside,
    List.drop_append_of_le_length inside, drop_padded]
  have rotated := rotateRight_append (items.drop index) (List.replicate count Value.null)
  rw [List.length_replicate] at rotated
  rw [rotated, List.append_assoc]
  rfl

theorem collapseItems_eq (found : heap.items? sequence = some items) {offset : Int}
    {index count : Nat} (position : position? items.length offset = some index) :
    heap.collapseItems sequence offset count =
      (min (index + count) items.length - index,
        (heap.setChildren sequence (items.take index ++ items.drop (index + count))).releaseAll
          ((items.drop index).take count)) := by
  simp only [collapseItems, found, position, List.length_take, List.length_drop]
  congr 1
  omega

/-- Items that are put back as they were are not changed. -/
theorem setChildren_self (found : heap.items? sequence = some items) :
    heap.setChildren sequence items = heap := by
  apply modifyCell_of_same
  intro cell present
  rw [← children_of_items? found, Heap.children, payload_of_cell? present,
    Payload.withChildren_children]

theorem Rewrites.collapseItems (consistent : heap.Consistent)
    (found : heap.items? sequence = some items) {offset : Int} {index : Nat}
    (position : position? items.length offset = some index) (count : Nat) :
    Rewrites heap (heap.collapseItems sequence offset count).2 sequence
      (items.take index ++ items.drop (index + count)) := by
  rw [collapseItems_eq found position]
  have closing := Rewrites.setItems consistent found
    (items.take index ++ items.drop (index + count))
  exact closing.trans (.releaseAll closing.consistent (closing.items? found) _)

/-- There is nothing to remove at the end and past it. -/
theorem collapseItems_of_le (found : heap.items? sequence = some items) {offset : Int}
    {index count : Nat} (position : position? items.length offset = some index)
    (past : items.length ≤ index) : heap.collapseItems sequence offset count = (0, heap) := by
  rw [collapseItems_eq found position, List.take_of_length_le past,
    List.drop_eq_nil_of_le past, List.drop_eq_nil_of_le (by omega), List.append_nil,
    setChildren_self found, List.take_nil]
  congr 1
  omega

/-! ## Single elements -/

/-- Storing an element owns it and then only puts it in the place of another. -/
theorem rewrites_setItem_owned (consistent : heap.Consistent)
    (found : heap.items? sequence = some items) (element : Value) {offset : Int} {index : Nat}
    (position : position? items.length offset = some index) (fits : Fits items (index + 1)) :
    ∃ heap', heap.setItem sequence element offset = .ok (items[index]?.getD .null, heap') ∧
      Rewrites (heap.own element).2 heap' sequence
        ((padded (index + 1) items).set index (heap.own element).1) := by
  have owning := Rewrites.own consistent found element
  have kept := owning.items? found
  have storing := Rewrites.setItems owning.consistent kept
    ((padded (index + 1) items).set index (heap.own element).1)
  have retaining := Rewrites.retain storing.consistent (storing.items? kept) (heap.own element).1
  have releasing := Rewrites.releaseAll retaining.consistent
    (retaining.items? (storing.items? kept)) [items[index]?.getD .null]
  refine ⟨_, ?_, (storing.trans retaining).trans releasing⟩
  have place : heap.itemPosition? sequence offset = some index := by
    rw [itemPosition?, found]
    exact position
  simp only [Heap.setItem, place, kept, padTo_of_fits fits, bind, Except.bind, replaceItem,
    getD_padded]
  rfl

/-- Storing an element owns it and puts it in the place of another. -/
theorem rewrites_setItem (consistent : heap.Consistent) (found : heap.items? sequence = some items)
    (element : Value) {offset : Int} {index : Nat}
    (position : position? items.length offset = some index) (fits : Fits items (index + 1)) :
    ∃ heap', heap.setItem sequence element offset = .ok (items[index]?.getD .null, heap') ∧
      Rewrites heap heap' sequence ((padded (index + 1) items).set index (heap.own element).1) := by
  obtain ⟨heap', stored, storing⟩ :=
    rewrites_setItem_owned consistent found element position fits
  exact ⟨heap', stored, (Rewrites.own consistent found element).trans storing⟩

/-- Storing an element at a place that exists. -/
theorem rewrites_setItem_of_lt (consistent : heap.Consistent) {front back : List Value}
    {old : Value} (found : heap.items? sequence = some (front ++ old :: back)) (element : Value) :
    ∃ heap', heap.setItem sequence element front.length = .ok (old, heap') ∧
      Rewrites heap heap' sequence (front ++ (heap.own element).1 :: back) := by
  have inside : front.length + 1 ≤ (front ++ old :: back).length := by simp
  have storing := rewrites_setItem consistent found element (position?_ofNat _ front.length)
    (.inl inside)
  rwa [padded_of_le inside, List.getElem?_append_right le_rfl, Nat.sub_self,
    List.getElem?_cons_zero, Option.getD_some, List.set_append_right _ _ le_rfl, Nat.sub_self,
    List.set_cons_zero] at storing

theorem itemPosition?_of_items? (found : heap.items? sequence = some items) (offset : Int) :
    heap.itemPosition? sequence offset = position? items.length offset := by
  rw [itemPosition?, found]
  rfl

/-- Inserting an element owns it and moves what comes after. -/
theorem rewrites_insertItem (consistent : heap.Consistent)
    (found : heap.items? sequence = some items) (element : Value) {offset : Int} {index : Nat}
    (position : position? items.length offset = some index)
    (fits : Fits items (max items.length index + 1)) :
    ∃ heap', heap.insertItem sequence element offset = .ok ((heap.own element).1, heap') ∧
      Rewrites heap heap' sequence
        ((padded index items).take index ++ (heap.own element).1 :: items.drop index) := by
  have owning := Rewrites.own consistent found element
  have kept := owning.items? found
  have expanded := expandItems_eq kept (position?_ofNat _ index) fits
  rw [List.append_assoc, List.replicate_one, List.singleton_append] at expanded
  have opening := Rewrites.setItems owning.consistent kept
    ((padded index items).take index ++ .null :: items.drop index)
  have front : ((padded index items).take index).length = index := by
    rw [List.length_take, length_padded]
    omega
  obtain ⟨heap', stored, storing⟩ := rewrites_setItem_of_lt opening.consistent
    (opening.items? kept) (heap.own element).1
  rw [front] at stored
  rw [own_of_not_isScratch (isScratch_own heap element)] at storing
  refine ⟨heap', ?_, (owning.trans opening).trans storing⟩
  simp only [Heap.insertItem, itemPosition?_of_items? found, position, expanded, bind,
    Except.bind, stored]
  rfl

/-- Removing an element answers it. -/
theorem rewrites_deleteItem (consistent : heap.Consistent)
    (found : heap.items? sequence = some items) {offset : Int} {index : Nat}
    (position : position? items.length offset = some index) (inside : index < items.length) :
    (heap.deleteItem sequence offset).1 = items[index] ∧
      Rewrites heap (heap.deleteItem sequence offset).2 sequence (items.eraseIdx index) := by
  simp only [Heap.deleteItem, itemPosition?_of_items? found, position, getItem, found,
    position?_ofNat]
  refine ⟨by rw [List.getElem?_eq_getElem inside, Option.getD_some], ?_⟩
  rw [List.eraseIdx_eq_take_drop_succ]
  exact .collapseItems consistent found (position?_ofNat _ index) 1

theorem size_of_items? (found : heap.items? sequence = some items) :
    heap.size sequence = items.length := by
  rcases payload_of_items? found with array | program
  · rw [size, array]
  · rw [size, program]

/-- Pushing an element owns it and puts it at the end. -/
theorem rewrites_pushItem (consistent : heap.Consistent)
    (found : heap.items? sequence = some items) (element : Value)
    (fits : Fits items (items.length + 1)) :
    ∃ heap', heap.pushItem sequence element = .ok ((heap.own element).1, heap') ∧
      Rewrites heap heap' sequence (items ++ [(heap.own element).1]) := by
  have length := size_of_items? found
  have inserting := rewrites_insertItem consistent found element
    (position?_ofNat items.length items.length) (by rwa [Nat.max_self])
  rwa [padded_of_le le_rfl, List.take_length, List.drop_length, ← length] at inserting

/-- Popping removes the last item. -/
theorem rewrites_popItem (consistent : heap.Consistent) {front : List Value} {last : Value}
    (found : heap.items? sequence = some (front ++ [last])) :
    (heap.popItem sequence).1 = last ∧ Rewrites heap (heap.popItem sequence).2 sequence front := by
  have length : (front ++ [last]).length = front.length + 1 := by
    rw [List.length_append, List.length_singleton]
  have position : position? (front ++ [last]).length (-1) = some front.length := by
    rw [position?_eq, length, if_neg (by omega), if_pos (by omega)]
    congr 1
    omega
  have deleting := rewrites_deleteItem consistent found position (by omega)
  rwa [List.getElem_concat_length rfl, List.eraseIdx_append_of_length_le le_rfl, Nat.sub_self,
    List.eraseIdx_cons_zero, List.append_nil] at deleting

theorem deleteItem_of_le (found : heap.items? sequence = some items) {offset : Int} {index : Nat}
    (position : position? items.length offset = some index) (past : items.length ≤ index) :
    heap.deleteItem sequence offset = (.null, heap) := by
  simp only [Heap.deleteItem, itemPosition?_of_items? found, position, getItem, found,
    position?_ofNat, List.getElem?_eq_none past, Option.getD_none,
    collapseItems_of_le found (position?_ofNat _ index) past]

/-! ## Ranges -/

/-- A new array of a range, of which no item is a scratch value. -/
theorem makes_sliceItems (consistent : heap.Consistent)
    (found : heap.items? sequence = some items)
    (durable : ∀ item ∈ items, item.isScratch = false) {offset : Int} {index : Nat}
    (position : position? items.length offset = some index) (count : Nat) :
    Makes heap (heap.sliceItems sequence offset count).2 (heap.sliceItems sequence offset count).1
      ((items.drop index).take count) := by
  simp only [sliceItems, found, position]
  exact makes_arrayOf consistent fun item member =>
    durable item (List.mem_of_mem_drop (List.mem_of_mem_take member))

/-- What is stored of an element: a long-lived value is stored itself. -/
def StoredAs (element stored : Value) : Prop :=
  stored.isScratch = false ∧ (element.isScratch = false → stored = element)

theorem storedAs_own (heap : Heap σ) (element : Value) :
    StoredAs element (heap.own element).1 :=
  ⟨isScratch_own heap element, fun durable => by rw [own_of_not_isScratch durable]⟩

/-- Elements are stored one after another in the place of as many others. -/
theorem rewrites_setItemsFrom (consistent : heap.Consistent) {elements front gap back : List Value}
    (found : heap.items? sequence = some (front ++ gap ++ back))
    (width : gap.length = elements.length) :
    ∃ heap' stored, setItemsFrom sequence front.length elements heap = .ok heap' ∧
      List.Forall₂ StoredAs elements stored ∧
      Rewrites heap heap' sequence (front ++ stored ++ back) := by
  induction elements generalizing heap front gap with
  | nil =>
      obtain rfl := List.length_eq_zero_iff.mp width
      exact ⟨heap, [], rfl, .nil, (Grows.refl heap).rewrites consistent consistent found⟩
  | cons element rest inductionHypothesis =>
      obtain ⟨old, others, rfl⟩ := List.exists_cons_of_length_eq_add_one width
      rw [List.append_assoc, List.cons_append] at found
      obtain ⟨between, stored, storing⟩ := rewrites_setItem_of_lt consistent found element
      have between' : between.items? sequence =
          some ((front ++ [(heap.own element).1]) ++ others ++ back) := by
        rw [storing.items? found]
        simp only [List.append_assoc, List.cons_append, List.nil_append]
      obtain ⟨heap', storedRest, storedAll, each, storingRest⟩ := inductionHypothesis
        storing.consistent between' (Nat.succ.inj width)
      refine ⟨heap', (heap.own element).1 :: storedRest, ?_, .cons (storedAs_own heap element) each,
        ?_⟩
      · rw [Heap.setItemsFrom, stored]
        rw [List.length_append, List.length_singleton] at storedAll
        exact storedAll
      · have whole := storing.trans storingRest
        simpa only [List.append_assoc, List.cons_append, List.nil_append] using whole

/-- A range is replaced by elements, and answered in a new array. -/
theorem rewrites_spliceItems (consistent : heap.Consistent)
    (found : heap.items? sequence = some items)
    (durable : ∀ item ∈ items, item.isScratch = false) (elements : List Value) {offset : Int}
    {index count : Nat} (position : position? items.length offset = some index)
    (fits : Fits (items.take index ++ items.drop (index + count))
      (max (items.take index ++ items.drop (index + count)).length index + elements.length)) :
    ∃ array heap' stored, heap.spliceItems sequence offset count elements = .ok (array, heap') ∧
      ¬heap.Issued array ∧ heap'.payload array = .array ((items.drop index).take count) ∧
      List.Forall₂ StoredAs elements stored ∧
      Rewrites heap heap' sequence
        ((padded index items).take index ++ stored ++ items.drop (index + count)) := by
  have place := position?_ofNat items.length index
  have making := makes_sliceItems consistent found durable place count
  have sliced := making.toGrows.rewrites consistent making.consistent found
  have sliced' := sliced.items? found
  have closing := Rewrites.collapseItems making.consistent sliced' place count
  have closed := closing.items? sliced'
  have expanded := expandItems_eq closed (position?_ofNat _ index) fits
  rw [take_padded_cut, drop_cut] at expanded
  have opening := Rewrites.setItems closing.consistent closed ((padded index items).take index ++
    List.replicate elements.length .null ++ items.drop (index + count))
  have front : ((padded index items).take index).length = index := by
    rw [List.length_take, length_padded]
    omega
  obtain ⟨heap', stored, storedAll, each, storing⟩ := rewrites_setItemsFrom opening.consistent
    (opening.items? closed) List.length_replicate
  rw [front] at storedAll
  have inside := (closing.trans opening).trans storing
  refine ⟨(heap.sliceItems sequence index count).1, heap', stored, ?_, making.fresh, ?_, each,
    sliced.trans inside⟩
  · simp only [Heap.spliceItems, itemPosition?_of_items? found, position, expanded, bind,
      Except.bind, storedAll]
    rfl
  · have different : (heap.sliceItems sequence index count).1 ≠ sequence := by
      intro same
      have issued := consistent.issued (isLive_of_items? found)
      rw [← same] at issued
      exact making.fresh issued
    have present : (heap.sliceItems sequence index count).2.isLive
        (heap.sliceItems sequence index count).1 = true :=
      isLive_of_payload_ne (by rw [making.content]; exact nofun)
    rw [inside.others (making.consistent.issued present) different, making.content]

/-! ## The whole interface -/

/-- A sequence is the list of its items: what each operation answers, and the list that it
leaves. -/
structure ActsAsList (heap : Heap σ) (sequence : Value) (items : List Value) : Prop where
  get : ∀ {offset index}, position? items.length offset = some index →
    heap.getItem sequence offset = items[index]?.getD .null
  set : ∀ element {offset index}, position? items.length offset = some index →
    Fits items (index + 1) →
    ∃ heap', heap.setItem sequence element offset = .ok (items[index]?.getD .null, heap') ∧
      Rewrites heap heap' sequence ((padded (index + 1) items).set index (heap.own element).1)
  insert : ∀ element {offset index}, position? items.length offset = some index →
    Fits items (max items.length index + 1) →
    ∃ heap', heap.insertItem sequence element offset = .ok ((heap.own element).1, heap') ∧
      Rewrites heap heap' sequence
        ((padded index items).take index ++ (heap.own element).1 :: items.drop index)
  delete : ∀ {offset index}, position? items.length offset = some index →
    ∀ inside : index < items.length,
      (heap.deleteItem sequence offset).1 = items[index] ∧
        Rewrites heap (heap.deleteItem sequence offset).2 sequence (items.eraseIdx index)
  deletePast : ∀ {offset index}, position? items.length offset = some index →
    items.length ≤ index → heap.deleteItem sequence offset = (.null, heap)
  expand : ∀ {offset index count}, position? items.length offset = some index →
    Fits items (max items.length index + count) →
    ∃ heap', heap.expandItems sequence offset count = .ok (true, heap') ∧
      Rewrites heap heap' sequence
        ((padded index items).take index ++ List.replicate count .null ++ items.drop index)
  collapse : ∀ {offset index} count, position? items.length offset = some index →
    (heap.collapseItems sequence offset count).1 = min (index + count) items.length - index ∧
      Rewrites heap (heap.collapseItems sequence offset count).2 sequence
        (items.take index ++ items.drop (index + count))
  collapsePast : ∀ {offset index} count, position? items.length offset = some index →
    items.length ≤ index → heap.collapseItems sequence offset count = (0, heap)
  push : ∀ element, Fits items (items.length + 1) →
    ∃ heap', heap.pushItem sequence element = .ok ((heap.own element).1, heap') ∧
      Rewrites heap heap' sequence (items ++ [(heap.own element).1])
  pop : ∀ front last, items = front ++ [last] →
    (heap.popItem sequence).1 = last ∧ Rewrites heap (heap.popItem sequence).2 sequence front
  popEmpty : items = [] → heap.popItem sequence = (.null, heap)
  slice : ∀ {offset index} count, position? items.length offset = some index →
    Makes heap (heap.sliceItems sequence offset count).2
      (heap.sliceItems sequence offset count).1 ((items.drop index).take count)
  sliceMiss : ∀ {offset} count, position? items.length offset = none →
    Makes heap (heap.sliceItems sequence offset count).2
      (heap.sliceItems sequence offset count).1 []
  splice : ∀ elements {offset index count}, position? items.length offset = some index →
    Fits (items.take index ++ items.drop (index + count))
      (max (items.take index ++ items.drop (index + count)).length index + elements.length) →
    ∃ array heap' stored, heap.spliceItems sequence offset count elements = .ok (array, heap') ∧
      ¬heap.Issued array ∧ heap'.payload array = .array ((items.drop index).take count) ∧
      List.Forall₂ StoredAs elements stored ∧
      Rewrites heap heap' sequence
        ((padded index items).take index ++ stored ++ items.drop (index + count))
  reverse : (heap.reverseItems sequence).1 = true ∧
    Rewrites heap (heap.reverseItems sequence).2 sequence items.reverse

/-- At this offset every operation misses: it answers that there is nothing and leaves the heap as
it was. -/
structure MissesAt (heap : Heap σ) (sequence : Value) (offset : Int) : Prop where
  get : heap.getItem sequence offset = .null
  set : ∀ element, heap.setItem sequence element offset = .ok (.null, heap)
  insert : ∀ element, heap.insertItem sequence element offset = .ok (.null, heap)
  delete : heap.deleteItem sequence offset = (.null, heap)
  expand : ∀ count, heap.expandItems sequence offset count = .ok (false, heap)
  collapse : ∀ count, heap.collapseItems sequence offset count = (0, heap)
  splice : ∀ count elements, heap.spliceItems sequence offset count elements = .ok (.null, heap)

/-- What is no sequence misses at every offset, and in every operation without one. -/
structure Misses (heap : Heap σ) (value : Value) : Prop where
  everywhere : ∀ offset, MissesAt heap value offset
  push : ∀ element, heap.pushItem value element = .ok (.null, heap)
  pop : heap.popItem value = (.null, heap)
  slice : ∀ offset count, heap.sliceItems value offset count = (.null, heap)
  reverse : heap.reverseItems value = (false, heap)

theorem missesAt_of_position? (found : heap.items? sequence = some items) {offset : Int}
    (miss : position? items.length offset = none) : heap.MissesAt sequence offset := by
  have place : heap.itemPosition? sequence offset = none := by
    rw [itemPosition?_of_items? found, miss]
  constructor <;> simp only [getItem, setItem, insertItem, deleteItem, expandItems, collapseItems,
    spliceItems, place, found, miss, implies_true]

theorem missesAt_of_items? {value : Value} (none : heap.items? value = none) (offset : Int) :
    heap.MissesAt value offset := by
  have place : heap.itemPosition? value offset = Option.none := by
    rw [itemPosition?, none]
    rfl
  constructor <;> simp only [getItem, setItem, insertItem, deleteItem, expandItems, collapseItems,
    spliceItems, place, none, implies_true]

theorem misses_of_items? {value : Value} (none : heap.items? value = none) :
    heap.Misses value where
  everywhere := missesAt_of_items? none
  push element := (missesAt_of_items? none _).insert element
  pop := (missesAt_of_items? none _).delete
  slice offset count := by rw [sliceItems, none]
  reverse := by rw [reverseItems, none]

theorem actsAsList (consistent : heap.Consistent) (found : heap.items? sequence = some items)
    (durable : ∀ item ∈ items, item.isScratch = false) : heap.ActsAsList sequence items where
  get position := by simp only [getItem, found, position]
  set element _ _ position fits :=
    rewrites_setItem consistent found element position fits
  insert element _ _ position fits :=
    rewrites_insertItem consistent found element position fits
  delete position inside := rewrites_deleteItem consistent found position inside
  deletePast position past := deleteItem_of_le found position past
  expand position fits :=
    ⟨_, expandItems_eq found position fits, .setItems consistent found _⟩
  collapse count position :=
    ⟨by rw [collapseItems_eq found position], .collapseItems consistent found position count⟩
  collapsePast _ position past := collapseItems_of_le found position past
  push element fits := rewrites_pushItem consistent found element fits
  pop front last whole := rewrites_popItem consistent (whole ▸ found)
  popEmpty empty := by
    subst empty
    exact (missesAt_of_position? found rfl).delete
  slice count position := makes_sliceItems consistent found durable position count
  sliceMiss count miss := by
    simp only [sliceItems, found, miss]
    exact makes_arrayOf consistent (List.forall_mem_nil _)
  splice elements _ _ _ position fits :=
    rewrites_spliceItems consistent found durable elements position fits
  reverse := by
    simp only [reverseItems, found]
    exact ⟨trivial, .setItems consistent found _⟩

/-- In every heap that operations lead to, an array or a program is the list of its items.  At an
offset before its first item every operation misses, but a slice, which is empty; and what is
neither an array nor a program misses everywhere. -/
theorem Runs.sequences_act_as_lists {config : Config} (runs : Runs False (.new config) heap)
    (sequence : Value) :
    (∀ length offset, position? length offset =
      if 0 ≤ offset then some offset.toNat
      else if 0 ≤ length + offset then some (length + offset).toNat else none) ∧
    (∀ items, heap.items? sequence = some items →
      heap.ActsAsList sequence items ∧
        ∀ offset, position? items.length offset = none → heap.MissesAt sequence offset) ∧
    (heap.items? sequence = none → heap.Misses sequence) := by
  have proper := runs.proper_new
  refine ⟨position?_eq, fun items found => ⟨actsAsList proper.toConsistent found ?_,
    fun offset miss => missesAt_of_position? found miss⟩, misses_of_items?⟩
  intro item member
  rw [← children_of_items? found] at member
  exact (proper.storable member).durable

/-! ## An array of three -/

/-- Two strings and an absent value in an array, and a scratch string. -/
def listing : List (Request .bare) :=
  [.string "x", .string "y", .arrayOf [.cell ⟨0, 0⟩, .cell ⟨1, 0⟩, .null], .scratchString "s"]

theorem isSome_listed : ((new {}).performAll? listing).isSome = true := by
  decide +kernel

/-- The heap with the array. -/
def listed : Heap .bare :=
  ((new {}).performAll? listing).get isSome_listed

/-- A copy of the scratch string is inserted before the last item.  The string "x" is no sequence,
and the array has no fourth item from the end. -/
theorem listed_acts_as_list :
    Runs False (.new {}) listed ∧
      (∃ heap', listed.insertItem (.cell ⟨2, 0⟩) (.scratch ⟨0, 0⟩) (-1) =
          .ok (.cell ⟨3, 0⟩, heap') ∧
        heap'.items? (.cell ⟨2, 0⟩) = some [.cell ⟨0, 0⟩, .cell ⟨1, 0⟩, .cell ⟨3, 0⟩, .null] ∧
        heap'.payload (.cell ⟨1, 0⟩) = listed.payload (.cell ⟨1, 0⟩)) ∧
      listed.MissesAt (.cell ⟨2, 0⟩) (-4) ∧ listed.Misses (.cell ⟨0, 0⟩) := by
  have runs : Runs False (.new {}) listed :=
    Runs.refl.performAll? (Option.some_get isSome_listed).symm
  have found : listed.items? (.cell ⟨2, 0⟩) = some [.cell ⟨0, 0⟩, .cell ⟨1, 0⟩, .null] := by
    decide +kernel
  have owned : (listed.own (.scratch ⟨0, 0⟩)).1 = .cell ⟨3, 0⟩ := by decide +kernel
  obtain ⟨-, acts, -⟩ := runs.sequences_act_as_lists (.cell ⟨2, 0⟩)
  obtain ⟨-, -, misses⟩ := runs.sequences_act_as_lists (.cell ⟨0, 0⟩)
  obtain ⟨lists, missesBefore⟩ := acts _ found
  obtain ⟨heap', inserted, rewrites⟩ := lists.insert (.scratch ⟨0, 0⟩)
    (show position? 3 (-1) = some 2 from rfl) (.inr (by decide))
  rw [owned] at inserted rewrites
  refine ⟨runs, ⟨heap', inserted, rewrites.items? found, rewrites.others ?_ nofun⟩,
    missesBefore _ rfl, misses (by decide +kernel)⟩
  decide +kernel

end Heap

end CountedHeap
