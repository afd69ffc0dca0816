import CountedHeap.Heap.Sweep
import CountedHeap.Proofs.Sound

/-!
Contract: the visits of a sweep, one by one and all together.

Owns:
- what a visit can do, and that a sweep keeps whatever every visit keeps;
- a sweep keeps counts exact;
- the order of the visits: a full sweep comes to every slot;
- a cell whose count is zero when a full sweep begins is gone when it ends.

Does not own: what a sweep spares.
-/

namespace CountedHeap.Heap

variable {σ : Signature} {heap heap' : Heap σ} {held : Multiset Value}

/-! ## One visit -/

/-- A visit passes over the slot, or it reclaims the cell there if nobody holds it. -/
theorem visit_cases (progress : Progress) (heap : Heap σ) :
    (visit progress heap).2 = { heap with cursor := heap.nextVisit + 1 } ∧
        (∀ cell, heap.occupant? heap.nextVisit = some cell → cell.refs ≠ 0) ∨
      ∃ cell, heap.occupant? heap.nextVisit = some cell ∧ cell.refs = 0 ∧
        (visit progress heap).2 =
          { (heap.vacate heap.nextVisit).releaseAll cell.payload.children with
            cursor := heap.nextVisit + 1 } := by
  unfold visit
  simp only
  split
  next empty =>
    refine .inl ⟨rfl, fun cell occupied => ?_⟩
    rw [empty] at occupied
    contradiction
  next cell occupied =>
    split
    next unheld =>
      refine .inr ⟨cell, occupied, unheld, ?_⟩
      rw [reclaim, occupied]
    next held =>
      refine .inl ⟨rfl, fun other found => ?_⟩
      obtain rfl := Option.some.inj (occupied.symm.trans found)
      exact held

theorem cell?_withCursor (heap : Heap σ) (cursor : Nat) (value : Value) :
    { heap with cursor }.cell? value = heap.cell? value :=
  (SameCells.counters heap cursor heap.allocated).cell? value

theorem cell?_vacate_of_isLive {index : Nat} {value : Value}
    (live : (heap.vacate index).isLive value = true) :
    (heap.vacate index).cell? value = heap.cell? value := by
  rw [cell?_vacate, if_neg]
  rintro rfl
  simp [isLive, cell?_vacate] at live

theorem refs_vacate_le (heap : Heap σ) (index : Nat) (value : Value) :
    (heap.vacate index).refs value ≤ heap.refs value := by
  unfold refs
  rw [cell?_vacate]
  by_cases here : value = heap.occupantHandle index
  · rw [if_pos here]
    exact Nat.zero_le _
  · rw [if_neg here]

/-- A visit brings nothing to life. -/
theorem isLive_visit {progress : Progress} {value : Value}
    (live : (visit progress heap).2.isLive value = true) : heap.isLive value = true := by
  rcases visit_cases progress heap with ⟨passed, -⟩ | ⟨cell, -, -, reclaimed⟩
  · rwa [passed, isLive_eq_of_cell?_eq (cell?_withCursor _ _ _)] at live
  · rw [reclaimed, isLive_eq_of_cell?_eq (cell?_withCursor _ _ _), isLive_releaseAll] at live
    rwa [isLive_eq_of_cell?_eq (cell?_vacate_of_isLive live)] at live

theorem refs_visit_le (progress : Progress) (heap : Heap σ) (value : Value) :
    (visit progress heap).2.refs value ≤ heap.refs value := by
  rcases visit_cases progress heap with ⟨passed, -⟩ | ⟨cell, -, -, reclaimed⟩
  · exact Nat.le_of_eq (passed ▸ refs_eq_of_cell?_eq (cell?_withCursor _ _ _))
  · rw [reclaimed, refs_eq_of_cell?_eq (cell?_withCursor _ _ _), refs_releaseAll]
    exact Nat.le_trans (Nat.sub_le _ _) (refs_vacate_le _ _ _)

/-! ## All visits -/

/-- What every visit keeps is kept by all visits together. -/
theorem sweepVisits_induction (keeps : Heap σ → Prop)
    (visiting : ∀ progress heap, keeps heap → keeps (visit progress heap).2)
    (limit? floor? : Option Nat) (visits : Nat) (progress : Progress) (start : keeps heap) :
    keeps (sweepVisits limit? floor? visits progress heap).2 := by
  induction visits generalizing progress heap with
  | zero => exact start
  | succ visits inductionHypothesis =>
      unfold sweepVisits
      split
      next => exact start
      next => exact inductionHypothesis _ (visiting progress heap start)

theorem sweep_induction (keeps : Heap σ → Prop)
    (visiting : ∀ progress heap, keeps heap → keeps (visit progress heap).2)
    (resetting : ∀ heap, keeps heap → keeps { heap with allocated := 0 })
    (budget : Budget) (start : keeps heap) : keeps (heap.sweep budget).2 :=
  resetting _ (sweepVisits_induction keeps visiting _ _ _ _ start)

/-! ## Exact counts -/

theorem Exact.of_cell? (exact_ : heap.Exact held)
    (same : ∀ value, heap'.cell? value = heap.cell? value) : heap'.Exact held := by
  have live : ∀ value, heap'.isLive value = heap.isLive value :=
    fun value => isLive_eq_of_cell?_eq (same value)
  intro value isLive
  rw [live] at isLive
  rw [refs_eq_of_cell?_eq (same value), exact_ value isLive, count_references_congr live
    fun holder => children_of_payload_eq (payload_eq_of_cell?_eq (same holder))]

theorem Exact.retainAll (exact_ : heap.Exact held) (values : List Value) :
    (heap.retainAll values).Exact (held + ↑values) := by
  induction values generalizing heap held with
  | nil => rwa [Multiset.coe_nil, add_zero]
  | cons first rest inductionHypothesis =>
      rw [← Multiset.cons_coe, Multiset.add_cons, ← Multiset.cons_add]
      exact inductionHypothesis (exact_.retain first)

theorem Exact.releaseAll {values : List Value} (exact_ : heap.Exact (held + ↑values)) :
    (heap.releaseAll values).Exact held := by
  intro value live
  rw [isLive_releaseAll] at live
  rw [refs_releaseAll, exact_ value live, count_references_congr (isLive_releaseAll heap values)
    fun holder => children_of_payload_eq (payload_releaseAll heap values holder),
    Multiset.count_add, Multiset.coe_count]
  omega

/-- The ledger gets what the cell held. -/
theorem Exact.vacate (exact_ : heap.Exact held) {index : Nat} {cell : Cell σ}
    (occupied : heap.occupant? index = some cell) :
    (heap.vacate index).Exact (held + ↑cell.payload.children) := by
  intro value live
  have same := cell?_vacate_of_isLive live
  rw [isLive_eq_of_cell?_eq same] at live
  rw [refs_eq_of_cell?_eq same, exact_ value live, count_references_vacate occupied,
    Multiset.count_add, Multiset.coe_count]
  omega

theorem Exact.visit (exact_ : heap.Exact held) (progress : Progress) :
    (Heap.visit progress heap).2.Exact held := by
  rcases visit_cases progress heap with ⟨passed, -⟩ | ⟨cell, occupied, -, reclaimed⟩
  · rw [passed]
    exact exact_.of_cell? (cell?_withCursor heap _)
  · rw [reclaimed]
    exact (exact_.vacate occupied).releaseAll.of_cell? (cell?_withCursor _ _)

/-! ## The order of the visits -/

theorem size_modifyCell (value : Value) (change : Cell σ → Cell σ) :
    (heap.modifyCell value change).slots.size = heap.slots.size := by
  cases value <;> simp [modifyCell]

theorem size_releaseAll (heap : Heap σ) (values : List Value) :
    (heap.releaseAll values).slots.size = heap.slots.size := by
  induction values generalizing heap with
  | nil => rfl
  | cons value rest inductionHypothesis =>
      exact (inductionHypothesis (heap.release value)).trans (size_modifyCell value _)

theorem size_visit (progress : Progress) (heap : Heap σ) :
    (visit progress heap).2.slots.size = heap.slots.size := by
  rcases visit_cases progress heap with ⟨passed, -⟩ | ⟨cell, -, -, reclaimed⟩
  · rw [passed]
  · rw [reclaimed]
    show ((heap.vacate _).releaseAll _).slots.size = _
    rw [size_releaseAll]
    simp [vacate]

/-- The visits go round. -/
theorem nextVisit_visit (progress : Progress) (heap : Heap σ) :
    (visit progress heap).2.nextVisit =
      if heap.nextVisit + 1 < heap.slots.size then heap.nextVisit + 1 else 0 := by
  have cursor : (visit progress heap).2.cursor = heap.nextVisit + 1 := by
    rcases visit_cases progress heap with ⟨passed, -⟩ | ⟨cell, -, -, reclaimed⟩
    · rw [passed]
    · rw [reclaimed]
  rw [nextVisit, cursor, size_visit]

/-- How many visits come before the one at `target`, if the next is at `position`. -/
def visitsBefore (size position target : Nat) : Nat :=
  if position ≤ target then target - position else target + size - position

theorem nextVisit_lt (occupied : 0 < heap.slots.size) : heap.nextVisit < heap.slots.size := by
  unfold nextVisit
  split <;> assumption

/-- The place of a live cell. -/
theorem occupant?_of_cell? {id : CellId} {cell : Cell σ}
    (found : heap.cell? (.cell id) = some cell) :
    heap.occupant? id.index = some cell ∧ heap.occupantHandle id.index = .cell id ∧
      id.index < heap.slots.size := by
  simp only [cell?] at found
  cases slotFound : heap.slots[id.index]? with
  | none => simp [slotFound] at found
  | some slot =>
      simp only [slotFound] at found
      split at found
      next current =>
        refine ⟨by rw [occupant?, slotFound]; exact found, ?_,
          (Array.getElem?_eq_some_iff.mp slotFound).1⟩
        unfold occupantHandle
        rw [slotFound]
        show Value.cell ⟨id.index, slot.generation⟩ = .cell id
        rw [current]
      next => contradiction

/-- The visit at a cell that nobody holds reclaims it. -/
theorem not_isLive_visit {progress : Progress} {id : CellId}
    (unheld : heap.refs (.cell id) = 0) (here : heap.nextVisit = id.index) :
    (visit progress heap).2.isLive (.cell id) = false := by
  apply eq_false_of_ne_true
  intro live
  obtain ⟨cell, found⟩ := isLive_iff.mp (isLive_visit live)
  obtain ⟨occupied, handle, -⟩ := occupant?_of_cell? found
  rcases visit_cases progress heap with ⟨-, held⟩ | ⟨other, -, -, reclaimed⟩
  · refine held cell (here ▸ occupied) ?_
    rwa [refs, found] at unheld
  · rw [reclaimed, isLive_eq_of_cell?_eq (cell?_withCursor _ _ _), isLive_releaseAll, here,
      isLive, cell?_vacate, handle, if_pos rfl] at live
    contradiction

/-- What is gone stays away for the rest of the sweep. -/
theorem not_isLive_sweepVisits_of_gone {value : Value} (limit? floor? : Option Nat) (visits : Nat)
    (progress : Progress) (stale : heap.isLive value = false) :
    (sweepVisits limit? floor? visits progress heap).2.isLive value = false := by
  apply sweepVisits_induction (fun heap => heap.isLive value = false) _ _ _ _ _ stale
  intro progress heap stale
  apply eq_false_of_ne_true
  intro live
  rw [isLive_visit live] at stale
  contradiction

theorem not_isLive_sweepVisits {id : CellId} {visits : Nat} (progress : Progress)
    (unheld : heap.refs (.cell id) = 0) (inside : id.index < heap.slots.size)
    (enough : visitsBefore heap.slots.size heap.nextVisit id.index < visits) :
    (sweepVisits none none visits progress heap).2.isLive (.cell id) = false := by
  induction visits generalizing progress heap with
  | zero => exact absurd enough (Nat.not_lt_zero _)
  | succ visits inductionHypothesis =>
      show (sweepVisits none none visits _ (visit progress heap).2).2.isLive (.cell id) = false
      by_cases here : heap.nextVisit = id.index
      · exact not_isLive_sweepVisits_of_gone _ _ _ _ (not_isLive_visit unheld here)
      · have position := nextVisit_lt (Nat.zero_lt_of_lt inside)
        apply inductionHypothesis
        · exact Nat.le_zero.mp (unheld ▸ refs_visit_le progress heap (.cell id))
        · rwa [size_visit]
        · rw [size_visit, nextVisit_visit]
          unfold visitsBefore at enough ⊢
          split at enough <;> split <;> split <;> omega

/-- A full sweep reclaims every cell that nobody holds when it begins. -/
theorem not_isLive_sweep_full {id : CellId} (unheld : heap.refs (.cell id) = 0) :
    (heap.sweep .full).2.isLive (.cell id) = false := by
  show (sweepVisits none none heap.slots.size {} heap).2.isLive (.cell id) = false
  cases live : heap.isLive (.cell id) with
  | false => exact not_isLive_sweepVisits_of_gone _ _ _ _ live
  | true =>
      obtain ⟨cell, found⟩ := isLive_iff.mp live
      obtain ⟨-, -, inside⟩ := occupant?_of_cell? found
      apply not_isLive_sweepVisits {} unheld inside
      have position := nextVisit_lt (Nat.zero_lt_of_lt inside)
      unfold visitsBefore
      split <;> omega

end CountedHeap.Heap
