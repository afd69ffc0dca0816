import CountedHeap.Heap.Clone
import CountedHeap.Proofs.Handles
import Mathlib.Data.List.Nodup
import Mathlib.Data.List.Perm.Basic

/-!
Contract: how often each value is referenced from within a heap.

`references` lists what all live cells refer to, with repetition.  Only its counts matter, so
every equation here is an equation of counts.

Owns:
- the handles of a heap are exactly the live ones, each listed once;
- the count of references after each elementary change.
-/

namespace CountedHeap.Heap

variable {σ : Signature} {heap heap' : Heap σ}

/-! ## The handles of a heap -/

theorem isLive_of_mem_handles {value : Value} (member : value ∈ heap.handles) :
    heap.isLive value = true := by
  rcases List.mem_append.mp member with inSlab | inPool
  · obtain ⟨index, -, found⟩ := List.mem_filterMap.mp inSlab
    cases slotFound : heap.slots[index]? with
    | none => simp [slotFound] at found
    | some slot =>
        obtain ⟨cell, occupied, rfl⟩ : ∃ cell, slot.cell = some cell ∧
            Value.cell ⟨index, slot.generation⟩ = value := by simpa [slotFound] using found
        exact isLive_iff.mpr ⟨cell, by simp [cell?, slotFound, occupied]⟩
  · obtain ⟨index, -, found⟩ := List.mem_filterMap.mp inPool
    obtain ⟨slot, slotFound, rfl⟩ := Option.map_eq_some_iff.mp found
    exact isLive_iff.mpr ⟨slot.cell, by simp [cell?, slotFound]⟩

theorem mem_handles_iff {value : Value} : value ∈ heap.handles ↔ heap.isLive value = true := by
  refine ⟨isLive_of_mem_handles, fun live => ?_⟩
  obtain ⟨cell, found⟩ := isLive_iff.mp live
  exact mem_handles found

/-- No handle is listed twice. -/
theorem handles_nodup : heap.handles.Nodup := by
  refine List.Nodup.append ?_ ?_ ?_
  · refine List.nodup_range.filterMap fun index other value found otherFound => ?_
    cases slotFound : heap.slots[index]? with
    | none => simp [slotFound] at found
    | some slot =>
        cases otherSlotFound : heap.slots[other]? with
        | none => simp [otherSlotFound] at otherFound
        | some otherSlot =>
            obtain ⟨cell, -, rfl⟩ : ∃ cell, slot.cell = some cell ∧
              Value.cell ⟨index, slot.generation⟩ = value := by simpa [slotFound] using found
            obtain ⟨otherCell, -, equal⟩ : ∃ cell, otherSlot.cell = some cell ∧
              Value.cell ⟨other, otherSlot.generation⟩ = .cell ⟨index, slot.generation⟩ := by
                simpa [otherSlotFound] using otherFound
            simp only [Value.cell.injEq, CellId.mk.injEq] at equal
            exact equal.1.symm
  · refine List.nodup_range.filterMap fun index other value found otherFound => ?_
    obtain ⟨slot, slotFound, rfl⟩ := Option.map_eq_some_iff.mp found
    obtain ⟨otherSlot, otherSlotFound, equal⟩ := Option.map_eq_some_iff.mp otherFound
    simp only [Value.scratch.injEq, ScratchId.mk.injEq] at equal
    exact equal.1.symm
  · intro value inSlab inPool
    obtain ⟨index, -, found⟩ := List.mem_filterMap.mp inPool
    obtain ⟨slot, slotFound, rfl⟩ := Option.map_eq_some_iff.mp found
    obtain ⟨other, -, otherFound⟩ := List.mem_filterMap.mp inSlab
    cases otherSlotFound : heap.slots[other]? with
    | none => simp [otherSlotFound] at otherFound
    | some slot => simp [otherSlotFound] at otherFound

theorem mem_references_iff {value : Value} :
    value ∈ heap.references ↔
      ∃ holder, heap.isLive holder = true ∧ value ∈ heap.children holder := by
  simp only [references, List.mem_flatMap, mem_handles_iff]

theorem mem_references {holder value : Value} (member : value ∈ heap.children holder) :
    value ∈ heap.references := by
  refine mem_references_iff.mpr ⟨holder, isLive_of_payload_ne fun absent => ?_, member⟩
  simp [children, absent, Payload.children] at member

theorem children_of_not_isLive {value : Value} (stale : heap.isLive value = false) :
    heap.children value = [] := by
  rw [children, payload_of_not_isLive stale]
  rfl

/-! ## Counting -/

/-- The references of a heap can be counted along any list that names the live cells once
each. -/
theorem count_references (heap : Heap σ) {list : List Value} (distinct : list.Nodup)
    (all : ∀ value, value ∈ list ↔ heap.isLive value = true) (value : Value) :
    heap.references.count value = (list.flatMap heap.children).count value := by
  have perm : heap.handles.Perm list := by
    refine (List.perm_ext_iff_of_nodup handles_nodup distinct).mpr fun other => ?_
    rw [mem_handles_iff, all]
  exact (perm.flatMap_right _).count_eq value

/-- Without a change to which cells are live and what they refer to, the counts of references
stay. -/
theorem count_references_congr (live : ∀ value, heap'.isLive value = heap.isLive value)
    (same : ∀ value, heap'.children value = heap.children value) (value : Value) :
    heap'.references.count value = heap.references.count value := by
  rw [count_references heap' heap.handles_nodup
    (fun other => by rw [mem_handles_iff, live])]
  simp only [references]
  rw [List.flatMap_congr fun other _ => same other]

/-- The counts of references when the references of one cell change. -/
theorem count_references_of_change (heap heap' : Heap σ) {target : Value}
    (targetLive : heap.isLive target = true)
    (live : ∀ value, heap'.isLive value = heap.isLive value)
    (same : ∀ value, value ≠ target → heap'.children value = heap.children value)
    (value : Value) :
    heap'.references.count value + (heap.children target).count value =
      heap.references.count value + (heap'.children target).count value := by
  have split : heap.handles.Perm (target :: heap.handles.erase target) :=
    List.perm_cons_erase (mem_handles_iff.mpr targetLive)
  have before := (split.flatMap_right heap.children).count_eq value
  have after := (split.flatMap_right heap'.children).count_eq value
  have rest : (heap.handles.erase target).flatMap heap'.children =
      (heap.handles.erase target).flatMap heap.children := by
    refine List.flatMap_congr fun other member => same other fun equal => ?_
    subst equal
    exact heap.handles_nodup.not_mem_erase member
  have all := count_references heap' heap.handles_nodup
    (fun other => by rw [mem_handles_iff, live]) value
  simp only [List.flatMap_cons, List.count_append, rest] at before after
  simp only [references] at all ⊢
  omega

/-- The counts of references when one cell comes into being. -/
theorem count_references_of_new (heap heap' : Heap σ) {new : Value}
    (fresh : heap.isLive new = false)
    (live : ∀ value, heap'.isLive value = true ↔ value = new ∨ heap.isLive value = true)
    (same : ∀ value, value ≠ new → heap'.children value = heap.children value)
    (value : Value) :
    heap'.references.count value =
      heap.references.count value + (heap'.children new).count value := by
  have outside : new ∉ heap.handles := by simp [mem_handles_iff, fresh]
  have all := count_references heap'
    (List.nodup_cons.mpr ⟨outside, heap.handles_nodup⟩)
    (fun other => by rw [List.mem_cons, mem_handles_iff, live]) value
  have rest : heap.handles.flatMap heap'.children = heap.handles.flatMap heap.children := by
    refine List.flatMap_congr fun other member => same other fun equal => ?_
    exact outside (equal ▸ member)
  rw [all, List.flatMap_cons, rest, List.count_append]
  simp only [references]
  omega

/-- The counts of references when some cells cease to be: what these held is gone. -/
theorem count_references_of_gone (heap heap' : Heap σ) {gone : List Value} (distinct : gone.Nodup)
    (present : ∀ value ∈ gone, heap.isLive value = true)
    (live : ∀ value, heap'.isLive value = true ↔ value ∉ gone ∧ heap.isLive value = true)
    (same : ∀ value, value ∉ gone → heap'.children value = heap.children value)
    (value : Value) :
    heap.references.count value =
      heap'.references.count value + (gone.flatMap heap.children).count value := by
  have outside : ∀ other ∈ heap'.handles, other ∉ gone := fun other member =>
    ((live other).mp (mem_handles_iff.mp member)).1
  have all := count_references heap
    (List.Nodup.append heap'.handles_nodup distinct outside)
    (fun other => by
      rw [List.mem_append, mem_handles_iff, live]
      by_cases member : other ∈ gone
      · simp [member, present other member]
      · simp [member]) value
  have rest : heap'.handles.flatMap heap.children = heap'.handles.flatMap heap'.children :=
    List.flatMap_congr fun other member => (same other (outside other member)).symm
  rw [all, List.flatMap_append, List.count_append, rest]
  rfl

/-! ## The elementary changes -/

theorem children_of_payload_eq {value : Value} (same : heap'.payload value = heap.payload value) :
    heap'.children value = heap.children value := by
  simp only [children, same]

theorem count_references_retain (value other : Value) :
    (heap.retain value).references.count other = heap.references.count other :=
  count_references_congr (isLive_retain value)
    (fun holder => children_of_payload_eq (payload_retain heap value holder)) other

theorem count_references_release (value other : Value) :
    (heap.release value).references.count other = heap.references.count other :=
  count_references_congr (isLive_release value)
    (fun holder => children_of_payload_eq (payload_release heap value holder)) other

theorem count_references_setPayload {target : Value} (live : heap.isLive target = true)
    (payload : Payload σ) (value : Value) :
    (heap.setPayload target payload).references.count value +
        (heap.children target).count value =
      heap.references.count value + payload.children.count value := by
  have after := count_references_of_change heap (heap.setPayload target payload) live
    (isLive_setPayload target · payload)
    (fun other different => children_of_payload_eq (by
      rw [payload_setPayload, if_neg (fun both => different both.1)])) value
  have replaced : (heap.setPayload target payload).children target = payload.children := by
    rw [children, payload_setPayload, if_pos ⟨rfl, live⟩]
  rwa [replaced] at after

theorem count_references_create (consistent : heap.Consistent) (payload : Payload σ)
    (value : Value) :
    (heap.create payload).2.references.count value =
      heap.references.count value + payload.children.count value := by
  have new : heap.isLive (heap.create payload).1 = false :=
    eq_false_of_ne_true fun live =>
      not_issued_create consistent payload (consistent.issued live)
  have after := count_references_of_new heap (heap.create payload).2 new
    (fun other => by simp [isLive_create consistent])
    (fun other different => children_of_payload_eq (payload_eq_of_cell?_eq (by
      rw [cell?_create consistent, if_neg different]))) value
  have content : (heap.create payload).2.children (heap.create payload).1 = payload.children := by
    rw [children, payload_create_self consistent payload]
  rwa [content] at after

theorem isLive_createScratch (payload : Payload σ) (value : Value) :
    (heap.createScratch payload).2.isLive value =
      (decide (value = (heap.createScratch payload).1) || heap.isLive value) := by
  simp only [isLive, cell?_createScratch]
  by_cases new : value = (heap.createScratch payload).1 <;> simp [new]

theorem count_references_createScratch (consistent : heap.Consistent) (payload : Payload σ)
    (value : Value) :
    (heap.createScratch payload).2.references.count value =
      heap.references.count value + payload.children.count value := by
  have new : heap.isLive (heap.createScratch payload).1 = false :=
    eq_false_of_ne_true fun live =>
      not_issued_createScratch payload (consistent.issued live)
  have after := count_references_of_new heap (heap.createScratch payload).2 new
    (fun other => by simp [isLive_createScratch])
    (fun other different => children_of_payload_eq (payload_eq_of_cell?_eq (by
      rw [cell?_createScratch, if_neg different]))) value
  have content : (heap.createScratch payload).2.children (heap.createScratch payload).1 =
      payload.children := by
    rw [children, payload_of_cell? (by rw [cell?_createScratch, if_pos rfl])]
  rwa [content] at after

theorem count_references_vacate {index : Nat} {cell : Cell σ}
    (occupied : heap.occupant? index = some cell) (value : Value) :
    heap.references.count value =
      (heap.vacate index).references.count value + cell.payload.children.count value := by
  have found : heap.cell? (heap.occupantHandle index) = some cell := by
    rw [cell?_occupantHandle, occupied]
  have after := count_references_of_gone heap (heap.vacate index)
    (List.nodup_singleton (heap.occupantHandle index))
    (by simpa using isLive_of_cell? found)
    (fun other => by
      simp only [isLive, cell?_vacate, List.mem_singleton]
      by_cases same : other = heap.occupantHandle index <;> simp [same])
    (fun other different => children_of_payload_eq (payload_eq_of_cell?_eq (by
      rw [cell?_vacate, if_neg (by simpa using different)]))) value
  have held : heap.children (heap.occupantHandle index) = cell.payload.children := by
    rw [children, payload_of_cell? found]
  simpa [held] using after

/-! ## The scratch pool -/

private theorem flatMap_range_getElem? {α β : Type} (items : List α)
    (content : Option α → List β) :
    (List.range items.length).flatMap (fun index => content items[index]?) =
      items.flatMap fun item => content (some item) := by
  induction items with
  | nil => rfl
  | cons head rest inductionHypothesis =>
      rw [List.length_cons, List.range_succ_eq_map, List.flatMap_cons, List.flatMap_map,
        List.flatMap_cons, ← inductionHypothesis]
      rfl

/-- What the scratch cells refer to, in the order of the pool. -/
theorem flatMap_scratchHandles :
    heap.scratchHandles.flatMap heap.children =
      heap.scratch.toList.flatMap fun slot => slot.cell.payload.children := by
  have inPlace : heap.scratchHandles.flatMap heap.children =
      (List.range heap.scratch.toList.length).flatMap fun index =>
        (heap.scratch.toList[index]?).elim [] fun slot => slot.cell.payload.children := by
    rw [scratchHandles, List.filterMap_eq_flatMap_toList, List.flatMap_assoc,
      Array.length_toList]
    refine List.flatMap_congr fun index _ => ?_
    rw [Array.getElem?_toList]
    cases slotFound : heap.scratch[index]? with
    | none => rfl
    | some slot =>
        have found : heap.cell? (.scratch ⟨index, slot.serial⟩) = some slot.cell := by
          simp [cell?, slotFound]
        simp [children, payload_of_cell? found]
  rw [inPlace]
  exact flatMap_range_getElem? heap.scratch.toList fun slot =>
    slot.elim [] fun slot => slot.cell.payload.children

theorem count_references_dropScratch (mark : Nat) (value : Value) :
    heap.references.count value =
      (heap.dropScratch mark).references.count value +
        ((heap.scratch.toList.drop mark).flatMap
          fun slot => slot.cell.payload.children).count value := by
  have slab : (heap.dropScratch mark).cellHandles.flatMap (heap.dropScratch mark).children =
      heap.cellHandles.flatMap heap.children := by
    refine List.flatMap_congr fun other member => children_of_payload_eq ?_
    obtain ⟨index, -, found⟩ := List.mem_filterMap.mp member
    refine payload_eq_of_cell?_eq (cell?_dropScratch_of_not_isScratch mark ?_)
    cases slotFound : (heap.dropScratch mark).slots[index]? with
    | none => simp [slotFound] at found
    | some slot =>
        obtain ⟨_, _, rfl⟩ : ∃ cell, slot.cell = some cell ∧
          Value.cell ⟨index, slot.generation⟩ = other := by simpa [slotFound] using found
        rfl
  have pool : heap.scratch.toList = heap.scratch.toList.take mark ++
      heap.scratch.toList.drop mark := (List.take_append_drop mark _).symm
  have kept : (heap.dropScratch mark).scratch.toList = heap.scratch.toList.take mark := by
    simp [dropScratch]
  simp only [references, handles, List.flatMap_append, List.count_append, slab,
    flatMap_scratchHandles, kept]
  conv => lhs; rw [pool]
  simp only [List.flatMap_append, List.count_append]
  omega

end CountedHeap.Heap
