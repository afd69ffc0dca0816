import CountedHeap.Heap.Scratch
import CountedHeap.Heap.Sweep

/-!
Contract: what every handle names after each elementary change of a heap.

An elementary change is making a cell, changing one cell in place, emptying a slot, or
dropping the end of the scratch pool.  All operations are made of these.

Owns:
- the handles that a heap has issued, whether or not they still name a cell;
- the consistency of the slab and of the pool, without which a new handle could be an old
  one;
- one equation of `cell?` for each elementary change, and what follows for payloads, counts
  and kinds.
-/

namespace CountedHeap.Heap

variable {σ : Signature} {heap : Heap σ}

/-- The handles a heap has given out.  A slot has issued its earlier generations, and the
present one if it is occupied; the next handle of a free slot is not issued yet.  Every
serial number below the next one is issued. -/
def Issued (heap : Heap σ) : Value → Prop
  | .null => True
  | .cell id =>
      ∃ slot, heap.slots[id.index]? = some slot ∧
        (id.generation < slot.generation ∨
          id.generation = slot.generation ∧ slot.cell.isSome = true)
  | .scratch id => id.serial < heap.nextSerial

/-- The free list names every free slot once, and every scratch cell has an issued serial
number. -/
structure Consistent (heap : Heap σ) : Prop where
  free_nodup : heap.free.Nodup
  mem_free : ∀ index, index ∈ heap.free ↔
    ∃ slot, heap.slots[index]? = some slot ∧ slot.cell = none
  serial_lt : ∀ (index : Nat) (slot : ScratchSlot σ),
    heap.scratch[index]? = some slot → slot.serial < heap.nextSerial

@[simp] theorem issued_null : heap.Issued .null := trivial

/-! ## Reading a cell -/

theorem isLive_iff {value : Value} :
    heap.isLive value = true ↔ ∃ cell, heap.cell? value = some cell :=
  Option.isSome_iff_exists

theorem isLive_of_cell? {value : Value} {cell : Cell σ}
    (found : heap.cell? value = some cell) : heap.isLive value = true :=
  isLive_iff.mpr ⟨cell, found⟩

theorem payload_of_cell? {value : Value} {cell : Cell σ}
    (found : heap.cell? value = some cell) : heap.payload value = cell.payload := by
  simp [payload, found]

theorem payload_of_not_isLive {value : Value} (stale : heap.isLive value = false) :
    heap.payload value = .null := by
  have none : heap.cell? value = none := by simpa [isLive] using stale
  simp [payload, none]

theorem isLive_of_payload_ne {value : Value} (present : heap.payload value ≠ .null) :
    heap.isLive value = true := by
  cases live : heap.isLive value with
  | true => rfl
  | false => exact absurd (payload_of_not_isLive live) present

theorem isLive_of_kind_ne {value : Value} (present : heap.kind value ≠ .null) :
    heap.isLive value = true := by
  refine isLive_of_payload_ne fun absent => present ?_
  rw [kind, absent]
  rfl

theorem kind_null : heap.kind .null = .null := rfl

theorem isLive_of_isMulti {value : Value} (container : (heap.kind value).isMulti = true) :
    heap.isLive value = true := by
  refine isLive_of_kind_ne fun absent => ?_
  simp [absent, Kind.isMulti] at container

theorem payload_eq_of_cell?_eq {heap' : Heap σ} {value : Value}
    (same : heap'.cell? value = heap.cell? value) : heap'.payload value = heap.payload value := by
  simp [payload, same]

theorem isLive_eq_of_cell?_eq {heap' : Heap σ} {value : Value}
    (same : heap'.cell? value = heap.cell? value) : heap'.isLive value = heap.isLive value := by
  simp [isLive, same]

theorem refs_eq_of_cell?_eq {heap' : Heap σ} {value : Value}
    (same : heap'.cell? value = heap.cell? value) : heap'.refs value = heap.refs value := by
  simp [refs, same]

/-- A handle that names a cell was issued. -/
theorem Consistent.issued (consistent : heap.Consistent) {value : Value}
    (live : heap.isLive value = true) : heap.Issued value := by
  obtain ⟨cell, found⟩ := isLive_iff.mp live
  cases value with
  | null => trivial
  | cell id =>
      simp only [cell?] at found
      split at found
      next slot slotFound =>
        split at found
        next current => exact ⟨slot, slotFound, .inr ⟨current.symm, by simp [found]⟩⟩
        next => simp at found
      next => simp at found
  | scratch id =>
      simp only [cell?] at found
      split at found
      next slot slotFound =>
        split at found
        next current =>
          have := consistent.serial_lt _ slot slotFound
          rwa [current] at this
        next => simp at found
      next => simp at found

/-! ## Changing a cell in place -/

private theorem modify_modify {α : Type} (items : Array α) (place : Nat) (first second : α → α) :
    (items.modify place first).modify place second =
      items.modify place fun item => second (first item) := by
  apply Array.ext_getElem?
  intro index
  simp only [Array.getElem?_modify]
  split
  next => rw [Option.map_map]; rfl
  next => rfl

/-- Two changes of one cell are one change. -/
theorem modifyCell_modifyCell (value : Value) (first second : Cell σ → Cell σ) :
    (heap.modifyCell value first).modifyCell value second =
      heap.modifyCell value fun cell => second (first cell) := by
  cases value with
  | null => rfl
  | cell id =>
      simp only [modifyCell, modify_modify]
      congr 2
      funext slot
      by_cases current : slot.generation = id.generation <;>
        simp [current, Option.map_map, Function.comp_def]
  | scratch id =>
      simp only [modifyCell, modify_modify]
      congr 2
      funext slot
      by_cases current : slot.serial = id.serial <;> simp [current]

theorem modifyCell_congr {value : Value} {first second : Cell σ → Cell σ}
    (same : ∀ cell, heap.cell? value = some cell → first cell = second cell) :
    heap.modifyCell value first = heap.modifyCell value second := by
  cases value with
  | null => rfl
  | cell id =>
      simp only [modifyCell, Heap.mk.injEq, and_true, true_and]
      apply Array.ext_getElem?
      intro index
      simp only [Array.getElem?_modify]
      split
      next here =>
        subst here
        cases slotFound : heap.slots[id.index]? with
        | none => rfl
        | some slot =>
            simp only [Option.map_some, Option.some.injEq]
            split
            next current =>
              cases occupied : slot.cell with
              | none => rfl
              | some cell => simp [same cell (by simp [cell?, slotFound, current, occupied])]
            next => rfl
      next => rfl
  | scratch id =>
      simp only [modifyCell, Heap.mk.injEq, and_true, true_and]
      apply Array.ext_getElem?
      intro index
      simp only [Array.getElem?_modify]
      split
      next here =>
        subst here
        cases slotFound : heap.scratch[id.index]? with
        | none => rfl
        | some slot =>
            simp only [Option.map_some, Option.some.injEq]
            split
            next current => rw [same slot.cell (by simp [cell?, slotFound, current])]
            next => rfl
      next => rfl

private theorem modify_id {α : Type} (items : Array α) (place : Nat) (change : α → α)
    (same : ∀ item, change item = item) : items.modify place change = items := by
  apply Array.ext_getElem?
  intro index
  simp only [Array.getElem?_modify]
  split <;> cases items[index]? <;> simp [same]

/-- A change that leaves the cell as it is leaves the heap as it is. -/
theorem modifyCell_of_same {value : Value} {change : Cell σ → Cell σ}
    (same : ∀ cell, heap.cell? value = some cell → change cell = cell) :
    heap.modifyCell value change = heap := by
  have nothing : heap.modifyCell value change = heap.modifyCell value id :=
    modifyCell_congr same
  rw [nothing]
  cases value with
  | null => rfl
  | cell id =>
      simp only [modifyCell]
      rw [modify_id]
      intro slot
      simp
  | scratch id =>
      simp only [modifyCell]
      rw [modify_id]
      intro slot
      simp

/-- No cell is changed where there is none. -/
theorem modifyCell_of_not_isLive {value : Value} (stale : heap.isLive value = false)
    (change : Cell σ → Cell σ) : heap.modifyCell value change = heap := by
  apply modifyCell_of_same
  intro cell found
  rw [isLive_of_cell? found] at stale
  contradiction

private theorem modify_comm {α : Type} (items : Array α) (place other : Nat)
    {first second : α → α} (commute : ∀ item, first (second item) = second (first item)) :
    (items.modify place first).modify other second =
      (items.modify other second).modify place first := by
  apply Array.ext_getElem?
  intro index
  simp only [Array.getElem?_modify]
  split <;> split <;> cases items[index]? <;> simp [commute]

/-- Changes of two cells, or two changes of one cell that commute, can be made in either
order. -/
theorem modifyCell_comm (value other : Value) {first second : Cell σ → Cell σ}
    (commute : ∀ cell, first (second cell) = second (first cell)) :
    (heap.modifyCell value first).modifyCell other second =
      (heap.modifyCell other second).modifyCell value first := by
  have swapped : first ∘ second = second ∘ first := funext commute
  cases value with
  | null => rfl
  | cell id =>
      cases other with
      | null => rfl
      | scratch otherId => rfl
      | cell otherId =>
          simp only [modifyCell, Heap.mk.injEq, and_true, true_and]
          refine modify_comm _ _ _ fun slot => ?_
          by_cases current : slot.generation = id.generation <;>
            by_cases otherCurrent : slot.generation = otherId.generation <;>
            simp_all [Option.map_map]
  | scratch id =>
      cases other with
      | null => rfl
      | cell otherId => rfl
      | scratch otherId =>
          simp only [modifyCell, Heap.mk.injEq, and_true, true_and]
          refine modify_comm _ _ _ fun slot => ?_
          by_cases current : slot.serial = id.serial <;>
            by_cases otherCurrent : slot.serial = otherId.serial <;>
            simp_all

theorem isLive_modifyCell (value other : Value) (change : Cell σ → Cell σ) :
    (heap.modifyCell value change).isLive other = heap.isLive other := by
  simp only [isLive, cell?_modifyCell]
  split <;> simp

theorem issued_modifyCell (value : Value) (change : Cell σ → Cell σ) {other : Value} :
    (heap.modifyCell value change).Issued other ↔ heap.Issued other := by
  cases value with
  | null => rfl
  | scratch id => cases other <;> rfl
  | cell id =>
      cases other with
      | null => rfl
      | scratch otherId => rfl
      | cell otherId =>
          simp only [Issued, modifyCell, Array.getElem?_modify]
          by_cases same : id.index = otherId.index
          · rw [if_pos same]
            cases heap.slots[otherId.index]? with
            | none => simp
            | some slot =>
                by_cases current : slot.generation = id.generation <;> simp [current]
          · rw [if_neg same]

theorem Consistent.modifyCell (consistent : heap.Consistent) (value : Value)
    (change : Cell σ → Cell σ) : (heap.modifyCell value change).Consistent := by
  cases value with
  | null => exact consistent
  | cell id =>
      refine ⟨consistent.free_nodup, fun index => ?_, consistent.serial_lt⟩
      refine (consistent.mem_free index).trans ?_
      simp only [Heap.modifyCell, Array.getElem?_modify]
      by_cases same : id.index = index
      · rw [if_pos same]
        cases heap.slots[index]? with
        | none => simp
        | some slot =>
            by_cases current : slot.generation = id.generation <;> simp [current]
      · rw [if_neg same]
  | scratch id =>
      refine ⟨consistent.free_nodup, consistent.mem_free, fun index slot found => ?_⟩
      simp only [Heap.modifyCell, Array.getElem?_modify] at found
      split at found
      next =>
        obtain ⟨before, foundBefore, rfl⟩ := Option.map_eq_some_iff.mp found
        have below := consistent.serial_lt index before foundBefore
        have sameSerial : (if before.serial = id.serial then
            { before with cell := change before.cell } else before).serial = before.serial := by
          split <;> rfl
        rwa [sameSerial]
      next => exact consistent.serial_lt index slot found

/-! ## Retaining and releasing -/

@[simp] theorem isLive_retain (value other : Value) :
    (heap.retain value).isLive other = heap.isLive other :=
  isLive_modifyCell value other _

@[simp] theorem isLive_release (value other : Value) :
    (heap.release value).isLive other = heap.isLive other :=
  isLive_modifyCell value other _

@[simp] theorem issued_retain (value other : Value) :
    (heap.retain value).Issued other ↔ heap.Issued other :=
  issued_modifyCell value _

@[simp] theorem issued_release (value other : Value) :
    (heap.release value).Issued other ↔ heap.Issued other :=
  issued_modifyCell value _

theorem payload_retainAll (heap : Heap σ) (values : List Value) (value : Value) :
    (heap.retainAll values).payload value = heap.payload value := by
  induction values generalizing heap with
  | nil => rfl
  | cons first rest inductionHypothesis =>
      exact (inductionHypothesis (heap.retain first)).trans (payload_retain heap first value)

theorem isLive_retainAll (heap : Heap σ) (values : List Value) (value : Value) :
    (heap.retainAll values).isLive value = heap.isLive value := by
  induction values generalizing heap with
  | nil => rfl
  | cons first rest inductionHypothesis =>
      exact (inductionHypothesis (heap.retain first)).trans (isLive_retain first value)

/-- Values that name nothing are not retained. -/
theorem retainAll_filter_isLive (heap : Heap σ) (values : List Value) :
    heap.retainAll (values.filter heap.isLive) = heap.retainAll values := by
  induction values generalizing heap with
  | nil => rfl
  | cons first rest inductionHypothesis =>
      by_cases live : heap.isLive first = true
      · have same : heap.isLive = (heap.retain first).isLive :=
          funext fun value => (isLive_retain first value).symm
        rw [List.filter_cons_of_pos live, same]
        exact inductionHypothesis (heap.retain first)
      · have nothing : heap.retain first = heap :=
          modifyCell_of_not_isLive (eq_false_of_ne_true live) _
        rw [List.filter_cons_of_neg live, inductionHypothesis heap]
        show _ = (heap.retain first).retainAll rest
        rw [nothing]

theorem payload_releaseAll (heap : Heap σ) (values : List Value) (value : Value) :
    (heap.releaseAll values).payload value = heap.payload value := by
  induction values generalizing heap with
  | nil => rfl
  | cons first rest inductionHypothesis =>
      exact (inductionHypothesis (heap.release first)).trans (payload_release heap first value)

theorem isLive_releaseAll (heap : Heap σ) (values : List Value) (value : Value) :
    (heap.releaseAll values).isLive value = heap.isLive value := by
  induction values generalizing heap with
  | nil => rfl
  | cons first rest inductionHypothesis =>
      exact (inductionHypothesis (heap.release first)).trans (isLive_release first value)

/-- A value is released once for each time it is listed. -/
theorem refs_releaseAll (heap : Heap σ) (values : List Value) (value : Value) :
    (heap.releaseAll values).refs value = heap.refs value - values.count value := by
  induction values generalizing heap with
  | nil => rfl
  | cons first rest inductionHypothesis =>
      show ((heap.release first).releaseAll rest).refs value = _
      rw [inductionHypothesis, refs_release, List.count_cons, Nat.sub_sub]
      by_cases same : value = first
      · simp [same, Nat.add_comm]
      · simp [same, Ne.symm same]

/-! ## Replacing a payload -/

/-- Replace the payload of the cell a handle names. -/
def setPayload (heap : Heap σ) (value : Value) (payload : Payload σ) : Heap σ :=
  heap.modifyCell value fun cell => { cell with payload }

theorem setChildren_eq_setPayload (value : Value) (children : List Value) :
    heap.setChildren value children =
      heap.setPayload value ((heap.payload value).withChildren children) := by
  refine modifyCell_congr fun cell found => ?_
  rw [payload_of_cell? found]

theorem cell?_setPayload (value other : Value) (payload : Payload σ) :
    (heap.setPayload value payload).cell? other =
      if other = value then (heap.cell? other).map fun cell => { cell with payload }
      else heap.cell? other :=
  cell?_modifyCell heap value other _

theorem payload_setPayload (value other : Value) (payload : Payload σ) :
    (heap.setPayload value payload).payload other =
      if other = value ∧ heap.isLive value = true then payload else heap.payload other := by
  simp only [Heap.payload, cell?_setPayload, isLive]
  by_cases same : other = value
  · subst same
    rcases Option.eq_none_or_eq_some (heap.cell? other) with found | ⟨cell, found⟩ <;>
      simp [found]
  · simp [same]

@[simp] theorem isLive_setPayload (value other : Value) (payload : Payload σ) :
    (heap.setPayload value payload).isLive other = heap.isLive other :=
  isLive_modifyCell value other _

@[simp] theorem issued_setPayload (value other : Value) (payload : Payload σ) :
    (heap.setPayload value payload).Issued other ↔ heap.Issued other :=
  issued_modifyCell value _

@[simp] theorem refs_setPayload (value other : Value) (payload : Payload σ) :
    (heap.setPayload value payload).refs other = heap.refs other := by
  simp only [refs, cell?_setPayload]
  by_cases same : other = value
  · rw [if_pos same]
    rcases Option.eq_none_or_eq_some (heap.cell? other) with found | ⟨cell, found⟩ <;>
      simp [found]
  · rw [if_neg same]

theorem retain_setPayload (value target : Value) (payload : Payload σ) :
    (heap.setPayload target payload).retain value =
      (heap.retain value).setPayload target payload :=
  modifyCell_comm target value fun _ => rfl

/-! ## Making a long-lived cell -/

theorem cell?_create (consistent : heap.Consistent) (payload : Payload σ) (value : Value) :
    (heap.create payload).2.cell? value =
      if value = (heap.create payload).1 then some { payload } else heap.cell? value := by
  unfold create
  split
  next index free freeEqual =>
    have member : index ∈ heap.free := by simp [freeEqual]
    obtain ⟨slot, slotFound, empty⟩ := (consistent.mem_free index).mp member
    cases value with
    | null => simp
    | scratch id => simp [cell?]
    | cell id =>
        simp only [cell?, slotFound, Array.getElem?_modify, Value.cell.injEq]
        by_cases here : index = id.index
        · subst here
          by_cases current : slot.generation = id.generation
          · rw [if_pos rfl, if_pos (by cases id; simp_all)]
            simp [slotFound, current]
          · rw [if_pos rfl, if_neg (fun equal => current (by rw [equal]))]
            simp [slotFound, current]
        · rw [if_neg here, if_neg (fun equal => here (by rw [equal]))]
  next =>
    cases value with
    | null => simp
    | scratch id => simp [cell?]
    | cell id =>
        simp only [cell?, Array.getElem?_push, Value.cell.injEq]
        by_cases here : id.index = heap.slots.size
        · rw [if_pos here]
          have beyond : heap.slots[id.index]? = none := by simp [here]
          by_cases current : id.generation = 0
          · rw [if_pos (by cases id; simp_all)]
            simp [current]
          · rw [if_neg (fun equal => current (by rw [equal]))]
            simp [beyond, Ne.symm current]
        · rw [if_neg here, if_neg (fun equal => here (by rw [equal]))]

/-- The handle of a new cell was not issued before. -/
theorem not_issued_create (consistent : heap.Consistent) (payload : Payload σ) :
    ¬heap.Issued (heap.create payload).1 := by
  unfold create
  split
  next index free freeEqual =>
    have member : index ∈ heap.free := by simp [freeEqual]
    obtain ⟨slot, slotFound, empty⟩ := (consistent.mem_free index).mp member
    rintro ⟨other, otherFound, earlier | ⟨_, occupied⟩⟩
    · simp_all
    · simp_all
  next =>
    rintro ⟨other, otherFound, _⟩
    simp at otherFound

theorem Issued.create (payload : Payload σ) {value : Value} (issued : heap.Issued value) :
    (heap.create payload).2.Issued value := by
  cases value with
  | null => trivial
  | scratch id =>
      unfold Heap.create
      split <;> exact issued
  | cell id =>
      obtain ⟨slot, slotFound, age⟩ := issued
      unfold Heap.create
      split
      next index free freeEqual =>
        simp only [Issued, Array.getElem?_modify, slotFound]
        by_cases here : index = id.index
        · rw [if_pos here]
          refine ⟨_, rfl, ?_⟩
          rcases age with earlier | ⟨same, _⟩
          · exact .inl earlier
          · exact .inr ⟨same, rfl⟩
        · rw [if_neg here]
          exact ⟨slot, rfl, age⟩
      next =>
        have inside := (Array.getElem?_eq_some_iff.mp slotFound).1
        simp only [Issued, Array.getElem?_push, slotFound]
        rw [if_neg (by omega)]
        exact ⟨slot, rfl, age⟩

theorem Consistent.create (consistent : heap.Consistent) (payload : Payload σ) :
    (heap.create payload).2.Consistent := by
  unfold Heap.create
  split
  next index free freeEqual =>
    have distinct := freeEqual ▸ consistent.free_nodup
    refine ⟨(List.nodup_cons.mp distinct).2, fun other => ?_, consistent.serial_lt⟩
    have before := consistent.mem_free other
    simp only [Array.getElem?_modify]
    rw [freeEqual, List.mem_cons] at before
    by_cases here : index = other
    · subst here
      have outside : index ∉ free := (List.nodup_cons.mp distinct).1
      rw [if_pos rfl]
      cases heap.slots[index]? <;> simp [outside]
    · rw [if_neg here, ← before]
      simp [Ne.symm here]
  next freeEqual =>
    refine ⟨consistent.free_nodup, fun other => ?_, consistent.serial_lt⟩
    simp only [Array.getElem?_push]
    by_cases here : other = heap.slots.size
    · rw [if_pos here]
      simp [freeEqual]
    · rw [if_neg here]
      exact consistent.mem_free other

theorem isLive_create (consistent : heap.Consistent) (payload : Payload σ) (value : Value) :
    (heap.create payload).2.isLive value =
      (decide (value = (heap.create payload).1) || heap.isLive value) := by
  simp only [isLive, cell?_create consistent]
  by_cases new : value = (heap.create payload).1 <;> simp [new]

/-- A cell that was there keeps everything when another is made. -/
theorem cell?_create_of_issued (consistent : heap.Consistent) (payload : Payload σ)
    {value : Value} (issued : heap.Issued value) :
    (heap.create payload).2.cell? value = heap.cell? value := by
  rw [cell?_create consistent, if_neg]
  intro new
  exact not_issued_create consistent payload (new ▸ issued)

theorem cell?_create_self (consistent : heap.Consistent) (payload : Payload σ) :
    (heap.create payload).2.cell? (heap.create payload).1 = some { payload } := by
  rw [cell?_create consistent, if_pos rfl]

theorem payload_create_of_issued (consistent : heap.Consistent) (payload : Payload σ)
    {value : Value} (issued : heap.Issued value) :
    (heap.create payload).2.payload value = heap.payload value :=
  payload_eq_of_cell?_eq (cell?_create_of_issued consistent payload issued)

theorem payload_create_self (consistent : heap.Consistent) (payload : Payload σ) :
    (heap.create payload).2.payload (heap.create payload).1 = payload :=
  payload_of_cell? (cell?_create_self consistent payload)

theorem payload_create (consistent : heap.Consistent) (payload : Payload σ) (value : Value) :
    (heap.create payload).2.payload value =
      if value = (heap.create payload).1 then payload else heap.payload value := by
  split
  next new => rw [new, payload_create_self consistent]
  next old => exact payload_eq_of_cell?_eq (by rw [cell?_create consistent, if_neg old])

theorem isScratch_create (payload : Payload σ) : (heap.create payload).1.isScratch = false := by
  unfold create
  split <;> rfl

theorem issued_create_self (consistent : heap.Consistent) (payload : Payload σ) :
    (heap.create payload).2.Issued (heap.create payload).1 :=
  (consistent.create payload).issued
    (isLive_of_cell? (cell?_create_self consistent payload))

theorem config_create (payload : Payload σ) : (heap.create payload).2.config = heap.config := by
  unfold create
  split <;> rfl

/-! ## Making a scratch cell -/

theorem cell?_createScratch (payload : Payload σ) (value : Value) :
    (heap.createScratch payload).2.cell? value =
      if value = (heap.createScratch payload).1 then some { payload }
      else heap.cell? value := by
  cases value with
  | null => simp [createScratch]
  | cell id => simp [createScratch, cell?]
  | scratch id =>
      simp only [createScratch, cell?, Array.getElem?_push, Value.scratch.injEq]
      by_cases here : id.index = heap.scratch.size
      · rw [if_pos here]
        have beyond : heap.scratch[id.index]? = none := by simp [here]
        by_cases current : id.serial = heap.nextSerial
        · rw [if_pos (by cases id; simp_all)]
          simp [current]
        · rw [if_neg (fun equal => current (by rw [equal]))]
          simp [beyond, Ne.symm current]
      · rw [if_neg here, if_neg (fun equal => here (by rw [equal]))]

theorem not_issued_createScratch (payload : Payload σ) :
    ¬heap.Issued (heap.createScratch payload).1 :=
  Nat.lt_irrefl _

theorem Issued.createScratch (payload : Payload σ) {value : Value}
    (issued : heap.Issued value) : (heap.createScratch payload).2.Issued value := by
  cases value with
  | null => trivial
  | cell id => exact issued
  | scratch id => exact Nat.lt_succ_of_lt issued

theorem Consistent.createScratch (consistent : heap.Consistent) (payload : Payload σ) :
    (heap.createScratch payload).2.Consistent := by
  refine ⟨consistent.free_nodup, consistent.mem_free, fun index slot found => ?_⟩
  simp only [Heap.createScratch, Array.getElem?_push] at found ⊢
  split at found
  next =>
    simp only [Option.some.injEq] at found
    rw [← found]
    exact Nat.lt_succ_self _
  next => exact Nat.lt_succ_of_lt (consistent.serial_lt index slot found)

/-! ## Emptying a slot -/

/-- The handle that names the present occupant of a slot. -/
def occupantHandle (heap : Heap σ) (index : Nat) : Value :=
  match heap.slots[index]? with
  | some slot => .cell ⟨index, slot.generation⟩
  | none => .null

theorem isScratch_occupantHandle (index : Nat) :
    (heap.occupantHandle index).isScratch = false := by
  unfold occupantHandle
  split <;> rfl

theorem cell?_occupantHandle (index : Nat) :
    heap.cell? (heap.occupantHandle index) = heap.occupant? index := by
  unfold occupantHandle occupant?
  cases found : heap.slots[index]? with
  | none => rfl
  | some slot => simp [cell?, found]

theorem cell?_vacate (index : Nat) (value : Value) :
    (heap.vacate index).cell? value =
      if value = heap.occupantHandle index then none else heap.cell? value := by
  unfold occupantHandle
  cases value with
  | null => simp
  | scratch id =>
      cases heap.slots[index]? <;> simp [vacate, cell?]
  | cell id =>
      simp only [vacate, cell?, Array.getElem?_modify]
      by_cases here : index = id.index
      · rw [if_pos here, here]
        cases found : heap.slots[id.index]? with
        | none => simp
        | some slot =>
            by_cases current : slot.generation = id.generation
            · have same : id = ⟨id.index, slot.generation⟩ := by cases id; simp_all
              simp [← same]
            · have different : ¬Value.cell id = .cell ⟨id.index, slot.generation⟩ := by
                intro equal
                simp only [Value.cell.injEq] at equal
                exact current (by rw [equal])
              simp [current, different]
      · rw [if_neg here]
        have different : ∀ generation, ¬Value.cell id = .cell ⟨index, generation⟩ := by
          intro generation equal
          simp only [Value.cell.injEq] at equal
          exact here (by rw [equal])
        cases heap.slots[index]? <;> simp [different]

theorem Issued.vacate (index : Nat) {value : Value} (issued : heap.Issued value) :
    (heap.vacate index).Issued value := by
  cases value with
  | null => trivial
  | scratch id => exact issued
  | cell id =>
      obtain ⟨slot, slotFound, age⟩ := issued
      simp only [Issued, Heap.vacate, Array.getElem?_modify, slotFound]
      by_cases here : index = id.index
      · rw [if_pos here]
        refine ⟨_, rfl, .inl ?_⟩
        rcases age with earlier | ⟨same, _⟩
        · exact Nat.lt_succ_of_lt earlier
        · exact same ▸ Nat.lt_succ_self _
      · rw [if_neg here]
        exact ⟨slot, rfl, age⟩

theorem Consistent.vacate (consistent : heap.Consistent) {index : Nat} {cell : Cell σ}
    (occupied : heap.occupant? index = some cell) : (heap.vacate index).Consistent := by
  obtain ⟨slot, slotFound, cellFound⟩ := Option.bind_eq_some_iff.mp occupied
  have outside : index ∉ heap.free := by
    intro member
    obtain ⟨other, otherFound, empty⟩ := (consistent.mem_free index).mp member
    simp_all
  refine ⟨List.nodup_cons.mpr ⟨outside, consistent.free_nodup⟩, fun other => ?_,
    consistent.serial_lt⟩
  have before := consistent.mem_free other
  simp only [Heap.vacate, List.mem_cons, Array.getElem?_modify]
  by_cases here : index = other
  · subst here
    simp [slotFound]
  · rw [if_neg here, before]
    simp [Ne.symm here]

/-! ## Dropping the end of the scratch pool -/

/-- The heap without the scratch cells above a mark. -/
def dropScratch (heap : Heap σ) (mark : Nat) : Heap σ :=
  { heap with scratch := heap.scratch.extract 0 mark }

theorem cell?_dropScratch_of_isLive (mark : Nat) {value : Value}
    (live : (heap.dropScratch mark).isLive value = true) :
    (heap.dropScratch mark).cell? value = heap.cell? value := by
  cases value with
  | null => rfl
  | cell id => rfl
  | scratch id =>
      obtain ⟨cell, found⟩ := isLive_iff.mp live
      have inside : id.index < min mark heap.scratch.size - 0 := by
        refine Decidable.byContradiction fun outside => ?_
        simp only [cell?, dropScratch, Array.getElem?_extract, if_neg outside] at found
        cases found
      simp only [cell?, dropScratch, Array.getElem?_extract, if_pos inside, Nat.zero_add]

theorem cell?_dropScratch_of_not_isScratch (mark : Nat) {value : Value}
    (durable : value.isScratch = false) :
    (heap.dropScratch mark).cell? value = heap.cell? value := by
  cases value with
  | null => rfl
  | cell id => rfl
  | scratch id => simp [Value.isScratch] at durable

theorem Consistent.dropScratch (consistent : heap.Consistent) (mark : Nat) :
    (heap.dropScratch mark).Consistent := by
  refine ⟨consistent.free_nodup, consistent.mem_free, fun index slot found => ?_⟩
  simp only [Heap.dropScratch, Array.getElem?_extract] at found
  split at found
  next => exact consistent.serial_lt _ slot (by simpa using found)
  next => simp at found

end CountedHeap.Heap
