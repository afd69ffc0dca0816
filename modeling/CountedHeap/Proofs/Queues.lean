import CountedHeap.Proofs.ListView

/-!
Contract: a bounded queue keeps the last of what was pushed onto it.

To queue an element, items are removed from the front until there is room for it, and then the
element is pushed.  An item that is removed is released; the element may be one of them.

Owns:
- the heap after some items were removed from the front, and what removing them answers;
- pushing as one change of the heap;
- what queueing answers and leaves, whatever the items, the element and the capacity;
- an absent item at the front, which is not answered if more than one item is removed.
-/

namespace CountedHeap

/-- The first value that is not absent, or the absent one if all are. -/
def firstPresent : List Value → Value
  | [] => .null
  | value :: rest => if value.isNull then firstPresent rest else value

/-- The first value is the first that is not absent, unless an absent value stands before others. -/
theorem firstPresent_eq_headD {values : List Value}
    (shows : values.headD .null ≠ .null ∨ values.length ≤ 1) :
    firstPresent values = values.headD .null := by
  cases values with
  | nil => rfl
  | cons value rest =>
      rw [firstPresent, List.headD_cons]
      cases value with
      | null =>
          rcases shows with present | single
          · exact absurd rfl present
          · rw [List.eq_nil_of_length_eq_zero (Nat.le_zero.mp (Nat.le_of_succ_le_succ single))]
            rfl
      | cell id => rfl
      | scratch id => rfl

namespace Heap

variable {σ : Signature} {heap heap' : Heap σ} {sequence : Value} {items : List Value}

/-! ## Changes of one cell -/

theorem setChildren_setChildren (value : Value) (first second : List Value) :
    (heap.setChildren value first).setChildren value second = heap.setChildren value second := by
  simp only [setChildren, modifyCell_modifyCell, Payload.withChildren_withChildren]

theorem setChildren_release (value other : Value) (children : List Value) :
    (heap.release other).setChildren value children =
      (heap.setChildren value children).release other :=
  modifyCell_comm other value fun _ => rfl

/-! ## Removing items from the front -/

/-- The heap after some items of a sequence are removed from its front and released. -/
def dropItems (heap : Heap σ) (sequence : Value) (items : List Value) (count : Nat) : Heap σ :=
  (heap.setChildren sequence (items.drop count)).releaseAll (items.take count)

theorem deleteItem_front {first : Value} {rest : List Value}
    (found : heap.items? sequence = some (first :: rest)) :
    heap.deleteItem sequence 0 = (first, (heap.setChildren sequence rest).release first) := by
  have place : position? (first :: rest).length 0 = some 0 := rfl
  simp only [deleteItem, itemPosition?_of_items? found, place, getItem, found, Int.ofNat_zero,
    collapseItems_eq found place]
  rfl

/-- The items are removed one by one, each released when it is removed. -/
theorem evictItems_eq (found : heap.items? sequence = some items) {count : Nat}
    (enough : count ≤ items.length) (evicted : Value) :
    evictItems sequence count evicted heap =
      (firstPresent (evicted :: items.take count), heap.dropItems sequence items count) := by
  induction count generalizing heap items evicted with
  | zero =>
      rw [evictItems, dropItems, List.drop_zero, setChildren_self found]
      cases evicted <;> rfl
  | succ count inductionHypothesis =>
      cases items with
      | nil => contradiction
      | cons first rest =>
          have found' : ((heap.setChildren sequence rest).release first).items? sequence =
              some rest := by
            rw [Heap.items?, payload_release]
            exact items?_setChildren found
          rw [evictItems, deleteItem_front found]
          dsimp only
          rw [inductionHypothesis found' (Nat.le_of_succ_le_succ enough)]
          congr 1
          · cases evicted <;> rfl
          · rw [dropItems, setChildren_release, setChildren_setChildren]
            rfl

theorem items?_dropItems (found : heap.items? sequence = some items) (count : Nat) :
    (heap.dropItems sequence items count).items? sequence = some (items.drop count) := by
  rw [Heap.items?, dropItems, payload_releaseAll]
  exact items?_setChildren found

theorem refs_dropItems (items : List Value) (count : Nat) (value : Value) :
    (heap.dropItems sequence items count).refs value =
      heap.refs value - (items.take count).count value := by
  rw [dropItems, refs_releaseAll, setChildren_eq_setPayload, refs_setPayload]

theorem payload_dropItems {value : Value} (different : value ≠ sequence) (count : Nat) :
    (heap.dropItems sequence items count).payload value = heap.payload value := by
  rw [dropItems, payload_releaseAll, setChildren_eq_setPayload, payload_setPayload,
    if_neg fun both => different both.1]

theorem isLive_dropItems (count : Nat) (value : Value) :
    (heap.dropItems sequence items count).isLive value = heap.isLive value := by
  rw [dropItems, isLive_releaseAll, setChildren_eq_setPayload, isLive_setPayload]

theorem Rewrites.dropItems (consistent : heap.Consistent)
    (found : heap.items? sequence = some items) (count : Nat) :
    Rewrites heap (heap.dropItems sequence items count) sequence (items.drop count) :=
  have cut := Rewrites.setItems consistent found (items.drop count)
  cut.trans (.releaseAll cut.consistent (cut.items? found) _)

/-! ## Pushing -/

/-- Putting an element in the place of an absent value at the end retains it. -/
theorem setItem_last {element : Value} (durable : element.isScratch = false)
    (found : heap.items? sequence = some (items ++ [.null])) :
    heap.setItem sequence element items.length =
      .ok (.null, (heap.setChildren sequence (items ++ [element])).retain element) := by
  have place : heap.itemPosition? sequence items.length = some items.length := by
    rw [itemPosition?_of_items? found, position?_ofNat]
  have enough : items.length + 1 ≤ (items ++ [Value.null]).length := by simp
  simp only [setItem, place, own_of_not_isScratch durable, found, padTo_of_le enough, bind,
    Except.bind, replaceItem]
  rw [List.getElem?_concat_length, Option.getD_some, List.set_append_right _ _ le_rfl,
    Nat.sub_self, List.set_cons_zero]
  rfl

/-- Pushing owns the element, puts it at the end and retains it. -/
theorem pushItem_eq (consistent : heap.Consistent) (found : heap.items? sequence = some items)
    (element : Value) (room : items.length < elementLimit) :
    heap.pushItem sequence element = .ok ((heap.own element).1,
      ((heap.own element).2.setChildren sequence (items ++ [(heap.own element).1])).retain
        (heap.own element).1) := by
  have place : heap.itemPosition? sequence items.length = some items.length := by
    rw [itemPosition?_of_items? found, position?_ofNat]
  have kept := (Rewrites.own consistent found element).items? found
  have opened : (heap.own element).2.expandItems sequence items.length 1 =
      .ok (true, (heap.own element).2.setChildren sequence (items ++ [.null])) := by
    rw [expandItems_eq kept (position?_ofNat _ items.length)
      (.inr (by rw [Nat.max_self]; exact room)), padded_of_le le_rfl, List.take_length,
      List.drop_length, List.append_nil, List.replicate_one]
  have gap : ((heap.own element).2.setChildren sequence (items ++ [.null])).items? sequence =
      some (items ++ [.null]) := items?_setChildren kept
  have filled := setItem_last (isScratch_own heap element) gap
  rw [pushItem, size_of_items? found]
  simp only [insertItem, place, opened, bind, Except.bind, filled, setChildren_setChildren]
  rfl

/-- Without room for one more there is no push. -/
theorem pushItem_of_full (consistent : heap.Consistent) (found : heap.items? sequence = some items)
    (element : Value) (full : elementLimit ≤ items.length) :
    heap.pushItem sequence element = .error (.storage (items.length + 1)) := by
  have place : heap.itemPosition? sequence items.length = some items.length := by
    rw [itemPosition?_of_items? found, position?_ofNat]
  have kept := (Rewrites.own consistent found element).items? found
  have beyond : padTo (items.length + 1) items = .error (.storage (items.length + 1)) := by
    rw [padTo, if_neg (by omega), if_neg (by omega)]
  rw [pushItem, size_of_items? found]
  simp only [insertItem, place, expandItems, kept, position?_ofNat, padTo_of_le le_rfl, bind,
    Except.bind, beyond]

/-! ## Queueing -/

/-- Queueing removes what is too much from the front and then pushes. -/
theorem queueItem_eq (found : heap.items? sequence = some items) (element : Value) {capacity : Nat}
    (positive : 0 < capacity) :
    let count := items.length + 1 - capacity
    heap.queueItem sequence element capacity =
      ((heap.dropItems sequence items count).pushItem sequence element).map
        fun pushed => (firstPresent (items.take count), pushed.2) := by
  intro count
  have enough : count ≤ items.length := by omega
  simp only [queueItem, found, if_neg (Nat.ne_of_gt positive)]
  rw [evictItems_eq found enough]
  dsimp only
  cases (heap.dropItems sequence items count).pushItem sequence element <;> rfl

/-- The heap after queueing an element: the items that were kept, and the element at the end, which
is owned and retained once more.  Nothing else that was issued changes what it holds. -/
structure Enqueued (heap roomy heap' : Heap σ) (sequence element : Value) (kept : List Value) :
    Prop where
  items : heap'.items? sequence = some (kept ++ [(roomy.own element).1])
  stored : StoredAs element (roomy.own element).1
  refs : ∀ value, heap'.refs value = (roomy.own element).2.refs value +
    if value = (roomy.own element).1 ∧ (roomy.own element).2.isLive value = true then 1 else 0
  others : ∀ {value}, heap.Issued value → value ≠ sequence →
    heap'.payload value = heap.payload value

theorem enqueued_of_dropItems (consistent : heap.Consistent)
    (found : heap.items? sequence = some items) (element : Value) (count : Nat) :
    let roomy := heap.dropItems sequence items count
    let owned := (roomy.own element).1
    Enqueued heap roomy
      (((roomy.own element).2.setChildren sequence (items.drop count ++ [owned])).retain owned)
      sequence element (items.drop count) := by
  intro roomy owned
  have dropping := Rewrites.dropItems consistent found count
  have left : roomy.items? sequence = some (items.drop count) := dropping.items? found
  have owning := Rewrites.own dropping.consistent left element
  have kept := owning.items? left
  have storing := Rewrites.setItems owning.consistent kept (items.drop count ++ [owned])
  have retaining := Rewrites.retain storing.consistent (storing.items? kept) owned
  have whole := ((dropping.trans owning).trans storing).trans retaining
  refine ⟨whole.items? found, storedAs_own roomy element, fun value => ?_, whole.others⟩
  rw [refs_retain, setChildren_eq_setPayload, refs_setPayload, isLive_setPayload]
  congr 1
  by_cases same : value = owned <;> simp [same, owned]

/-- What queueing does, in every heap that operations lead to.

A capacity of zero and a value that is no sequence are misses.  Otherwise the items that are too
many are removed from the front, each released once, the last `capacity - 1` are kept, and the
element is put behind them; without room for one more the run ends.  The answer is the first removed
item that is not absent.  That is the item at the front if it is not absent or no other is
removed, and the absent value if none is removed. -/
theorem Runs.queue_keeps_last {loose : Prop} {config : Config}
    (runs : Runs loose (.new config) heap) (sequence element : Value) (capacity : Nat) :
    (capacity = 0 ∨ heap.items? sequence = none →
      heap.queueItem sequence element capacity = .ok (.null, heap)) ∧
    ∀ items, heap.items? sequence = some items → 0 < capacity →
      let count := items.length + 1 - capacity
      let roomy := heap.dropItems sequence items count
      (items.drop count).length = min items.length (capacity - 1) ∧
      (roomy.items? sequence = some (items.drop count) ∧ ∀ value,
        roomy.refs value = heap.refs value - (items.take count).count value ∧
          roomy.isLive value = heap.isLive value ∧
          (value ≠ sequence → roomy.payload value = heap.payload value)) ∧
      ((items.drop count).length < elementLimit → ∃ heap',
        heap.queueItem sequence element capacity =
          .ok (firstPresent (items.take count), heap') ∧
        Enqueued heap roomy heap' sequence element (items.drop count) ∧
        heap'.size sequence ≤ capacity) ∧
      (elementLimit ≤ (items.drop count).length →
        heap.queueItem sequence element capacity =
          .error (.storage ((items.drop count).length + 1))) ∧
      (items.length < capacity → firstPresent (items.take count) = .null) ∧
      (capacity ≤ items.length → items.headD .null ≠ .null ∨ items.length = capacity →
        firstPresent (items.take count) = items.headD .null) := by
  have consistent := runs.proper_new.toConsistent
  refine ⟨fun miss => ?_, fun items found positive => ?_⟩
  · unfold queueItem
    rcases miss with rfl | none
    · split <;> rfl
    · rw [none]
  intro count roomy
  have length : (items.drop count).length = min items.length (capacity - 1) := by
    rw [List.length_drop]
    omega
  have left : roomy.items? sequence = some (items.drop count) := items?_dropItems found count
  have roomyConsistent : roomy.Consistent := (Rewrites.dropItems consistent found count).consistent
  have queueing := queueItem_eq found element positive
  dsimp only at queueing
  refine ⟨length, ⟨left, fun value => ⟨refs_dropItems items count value,
      isLive_dropItems count value, fun different => payload_dropItems different count⟩⟩,
    fun room => ?_, fun full => ?_, fun short => ?_, fun long shows => ?_⟩
  · rw [pushItem_eq roomyConsistent left element room] at queueing
    have enqueued := enqueued_of_dropItems consistent found element count
    refine ⟨_, queueing, enqueued, ?_⟩
    rw [size_of_items? enqueued.items, List.length_append, length, List.length_singleton]
    omega
  · rw [queueing, pushItem_of_full roomyConsistent left element full]
    rfl
  · have none : count = 0 := by omega
    rw [none]
    rfl
  · have front : (items.take count).headD .null = items.headD .null := by
      have some : count ≠ 0 := by omega
      rw [List.headD_eq_head?_getD, List.head?_take, if_neg some, ← List.headD_eq_head?_getD]
    rw [← front] at shows ⊢
    apply firstPresent_eq_headD
    refine shows.imp_right fun exact_ => ?_
    rw [List.length_take]
    omega

/-- Two strings, an array that holds the first of them twice, and an array with an absent item in
front of it. -/
def lining : List (Request .bare) :=
  [.string "x", .string "y", .arrayOf [.cell ⟨0, 0⟩, .cell ⟨1, 0⟩, .cell ⟨0, 0⟩],
    .arrayOf [.null, .cell ⟨0, 0⟩]]

theorem isSome_lining : ((new {}).performAll? lining).isSome = true := by
  decide +kernel

/-- The heap with the arrays. -/
def lined : Heap .bare :=
  ((new {}).performAll? lining).get isSome_lining

theorem runs_lined : Runs False (.new {}) lined :=
  Runs.refl.performAll? (Option.some_get isSome_lining).symm

/-- The string at the front is removed and queued again, and the other one is let go. -/
theorem removed_item_is_queued_again :
    Runs False (.new {}) lined ∧
      lined.items? (.cell ⟨2, 0⟩) = some [.cell ⟨0, 0⟩, .cell ⟨1, 0⟩, .cell ⟨0, 0⟩] ∧
      ∃ heap', lined.queueItem (.cell ⟨2, 0⟩) (.cell ⟨0, 0⟩) 2 = .ok (.cell ⟨0, 0⟩, heap') ∧
        heap'.items? (.cell ⟨2, 0⟩) = some [.cell ⟨0, 0⟩, .cell ⟨0, 0⟩] ∧
        heap'.refs (.cell ⟨0, 0⟩) = lined.refs (.cell ⟨0, 0⟩) ∧
        heap'.refs (.cell ⟨1, 0⟩) = lined.refs (.cell ⟨1, 0⟩) - 1 := by
  have found : lined.items? (.cell ⟨2, 0⟩) =
      some [.cell ⟨0, 0⟩, .cell ⟨1, 0⟩, .cell ⟨0, 0⟩] := by
    decide +kernel
  obtain ⟨-, queue⟩ := runs_lined.queue_keeps_last (.cell ⟨2, 0⟩) (.cell ⟨0, 0⟩) 2
  obtain ⟨-, -, room, -⟩ := queue _ found (by decide)
  obtain ⟨heap', queued, enqueued, -⟩ := room (by decide)
  refine ⟨runs_lined, found, heap', queued, enqueued.items, ?_, ?_⟩
  · rw [enqueued.refs]
    decide +kernel
  · rw [enqueued.refs]
    decide +kernel

/-- The absent item is the first that is removed, and the string behind it is answered. -/
theorem absent_front_is_passed_over :
    Runs False (.new {}) lined ∧
      lined.items? (.cell ⟨3, 0⟩) = some [.null, .cell ⟨0, 0⟩] ∧
      ((lined.queueItem (.cell ⟨3, 0⟩) (.cell ⟨1, 0⟩) 1).toOption.map Prod.fst) =
        some (.cell ⟨0, 0⟩) :=
  ⟨runs_lined, by decide +kernel, by decide +kernel⟩

end Heap

end CountedHeap
