import CountedHeap.Proofs.Runs
import CountedHeap.Proofs.Scripts

/-!
Contract: the slab keeps its own books.

The live count, the free list, the slots and the place of the next sweep are written by different
operations.  Between any two elementary changes they agree.

Owns:
- `SlabOrdered`, which every elementary change keeps;
- a cell is made in a slot that nothing occupies, and one that is given up was counted;
- the books are in order at every heap that a run comes to, on the way there, and between the
  visits of a sweep.

Does not own: the references between cells.
-/

namespace CountedHeap.Heap

variable {σ : Signature} {loose : Prop} {floor : Nat} {first heap heap' : Heap σ}

/-- How many slots are occupied. -/
def occupied (heap : Heap σ) : Nat :=
  (List.range heap.slots.size).countP fun index => (heap.occupant? index).isSome

/-- The slot that the next long-lived cell gets. -/
def vacancy (heap : Heap σ) : Nat :=
  heap.free.headD heap.slots.size

/-- The books of the slab are in order. -/
structure SlabOrdered (heap : Heap σ) : Prop where
  live_eq : heap.live = heap.occupied
  free_nodup : heap.free.Nodup
  mem_free : ∀ index,
    index ∈ heap.free ↔ index < heap.slots.size ∧ heap.occupant? index = none
  cursor_le : heap.cursor ≤ heap.slots.size

/-! ## Counting the slots -/

theorem occupant?_eq_none_of_size_le {index : Nat} (outside : heap.slots.size ≤ index) :
    heap.occupant? index = none := by
  rw [occupant?, Array.getElem?_eq_none outside]
  rfl

theorem lt_size_of_occupant? {index : Nat} {cell : Cell σ}
    (found : heap.occupant? index = some cell) : index < heap.slots.size := by
  by_contra outside
  rw [occupant?_eq_none_of_size_le (Nat.le_of_not_lt outside)] at found
  contradiction

theorem mem_free_iff (consistent : heap.Consistent) (index : Nat) :
    index ∈ heap.free ↔ index < heap.slots.size ∧ heap.occupant? index = none := by
  rw [consistent.mem_free]
  constructor
  · rintro ⟨slot, found, vacant⟩
    refine ⟨(Array.getElem?_eq_some_iff.mp found).1, ?_⟩
    rw [occupant?, found]
    exact vacant
  · rintro ⟨inside, vacant⟩
    rw [occupant?, Array.getElem?_eq_getElem inside] at vacant
    exact ⟨_, Array.getElem?_eq_getElem inside, vacant⟩

/-- Every slot is occupied or free. -/
theorem occupied_add_length_free (nodup : heap.free.Nodup)
    (members : ∀ index,
      index ∈ heap.free ↔ index < heap.slots.size ∧ heap.occupant? index = none) :
    heap.occupied + heap.free.length = heap.slots.size := by
  have perm : heap.free.Perm
      ((List.range heap.slots.size).filter fun index => ¬(heap.occupant? index).isSome) := by
    apply (List.perm_ext_iff_of_nodup nodup (List.nodup_range.filter _)).mpr
    intro index
    rw [members, List.mem_filter, List.mem_range]
    simp
  have total := List.length_eq_countP_add_countP (l := List.range heap.slots.size)
    fun index => (heap.occupant? index).isSome
  rw [perm.length_eq, ← List.countP_eq_length_filter, occupied, ← total, List.length_range]

theorem occupied_pos {index : Nat} {cell : Cell σ} (found : heap.occupant? index = some cell) :
    0 < heap.occupied := by
  apply List.countP_pos_iff.mpr
  exact ⟨index, List.mem_range.mpr (lt_size_of_occupant? found), by rw [found]; rfl⟩

/-- The live count is right if it and the free list account for all slots. -/
theorem SlabOrdered.of_balance (consistent : heap.Consistent)
    (balance : heap.live + heap.free.length = heap.slots.size)
    (inside : heap.cursor ≤ heap.slots.size) : heap.SlabOrdered where
  live_eq := by
    have total := occupied_add_length_free consistent.free_nodup (mem_free_iff consistent)
    omega
  free_nodup := consistent.free_nodup
  mem_free := mem_free_iff consistent
  cursor_le := inside

/-- The live and the free slots are all slots. -/
theorem SlabOrdered.balance (ordered : heap.SlabOrdered) :
    heap.live + heap.free.length = heap.slots.size := by
  rw [ordered.live_eq]
  exact occupied_add_length_free ordered.free_nodup ordered.mem_free

theorem SlabOrdered.new (config : Config) : (new config : Heap σ).SlabOrdered :=
  .of_balance (Proper.new True config).toConsistent rfl (Nat.le_refl _)

/-! ## What a step relies on -/

/-- A cell that is given up was counted. -/
theorem SlabOrdered.live_pos (ordered : heap.SlabOrdered) {index : Nat} {cell : Cell σ}
    (found : heap.occupant? index = some cell) : 0 < heap.live :=
  ordered.live_eq ▸ occupied_pos found

/-- Nothing occupies the slot that the next cell gets. -/
theorem SlabOrdered.vacant (ordered : heap.SlabOrdered) : heap.occupant? heap.vacancy = none := by
  unfold vacancy
  cases listed : heap.free with
  | nil => exact occupant?_eq_none_of_size_le (Nat.le_refl _)
  | cons index rest => exact ((ordered.mem_free index).mp (listed ▸ .head rest)).2

/-- A new cell occupies one slot, and the other slots keep their cells. -/
theorem SlabOrdered.occupant?_create (ordered : heap.SlabOrdered) (payload : Payload σ)
    (index : Nat) :
    (heap.create payload).2.occupant? index =
      if index = heap.vacancy then some { payload } else heap.occupant? index := by
  cases listed : heap.free with
  | nil =>
      have place : heap.vacancy = heap.slots.size := by
        rw [vacancy, listed]
        rfl
      simp only [place, Heap.create, listed, occupant?, Array.getElem?_push]
      by_cases here : index = heap.slots.size
      · rw [if_pos here, if_pos here]
        rfl
      · rw [if_neg here, if_neg here]
  | cons head rest =>
      have place : heap.vacancy = head := by
        rw [vacancy, listed]
        rfl
      have inside : head < heap.slots.size :=
        ((ordered.mem_free head).mp (listed ▸ .head rest)).1
      simp only [place, Heap.create, listed, occupant?, Array.getElem?_modify]
      by_cases here : index = head
      · rw [if_pos here.symm, if_pos here, here, Array.getElem?_eq_getElem inside]
        rfl
      · rw [if_neg (Ne.symm here), if_neg here]

/-! ## Changes -/

theorem Change.balance {made : List Value} (change : Change loose floor heap made heap')
    (ordered : heap.SlabOrdered) : heap'.live + heap'.free.length = heap'.slots.size := by
  have balance := ordered.balance
  cases change with
  | create =>
      unfold Heap.create
      cases listed : heap.free with
      | nil =>
          rw [listed] at balance
          simp only [Array.size_push, List.length_nil] at balance ⊢
          omega
      | cons place rest =>
          rw [listed] at balance
          simp only [Array.size_modify, List.length_cons] at balance ⊢
          omega
  | retain value => cases value <;> simpa [Heap.retain, Heap.modifyCell] using balance
  | release value => cases value <;> simpa [Heap.release, Heap.modifyCell] using balance
  | @setPayload target => cases target <;> simpa [Heap.setPayload, Heap.modifyCell] using balance
  | vacate occupied =>
      have counted := ordered.live_pos occupied
      simp only [Heap.vacate, Array.size_modify, List.length_cons]
      omega
  | createScratch | dropScratch | tune => exact balance

/-- A change that leaves the place of the next sweep within the slab leaves the books in order. -/
theorem Proceeds.slabOrdered (proceeds : Proceeds loose floor heap heap')
    (consistent : heap.Consistent) (ordered : heap.SlabOrdered) : heap'.SlabOrdered := by
  obtain ⟨⟨made, change⟩, inside⟩ := proceeds
  exact .of_balance (change.consistent consistent) (change.balance ordered)
    (inside ordered.cursor_le)

/-- A change between two heaps whose books are in order, by which no slot is lost. -/
structure OrderedStep (loose : Prop) (floor : Nat) (heap heap' : Heap σ) : Prop where
  change : ∃ made, Change loose floor heap made heap'
  before : heap.SlabOrdered
  after : heap'.SlabOrdered
  size_le : heap.slots.size ≤ heap'.slots.size

/-- On the way from a heap whose books are in order they stay in order. -/
theorem Leads.ordered (leads : Leads loose floor first heap) (consistent : first.Consistent)
    (ordered : first.SlabOrdered) :
    Relation.ReflTransGen (OrderedStep loose floor) first heap ∧ heap.Consistent ∧
      heap.SlabOrdered ∧ first.slots.size ≤ heap.slots.size := by
  induction leads with
  | refl => exact ⟨.refl, consistent, ordered, Nat.le_refl _⟩
  | tail _ proceeds inductionHypothesis =>
      obtain ⟨chain, consistentBefore, orderedBefore, grown⟩ := inductionHypothesis
      have orderedAfter := proceeds.slabOrdered consistentBefore orderedBefore
      obtain ⟨⟨made, change⟩, -⟩ := proceeds
      exact ⟨chain.tail ⟨⟨made, change⟩, orderedBefore, orderedAfter, change.size_le⟩,
        change.consistent consistentBefore, orderedAfter, grown.trans change.size_le⟩

/-- Reclaiming a cell that nobody holds. -/
theorem Leads.reclaim {index : Nat} {cell : Cell σ} (found : heap.occupant? index = some cell)
    (unheld : cell.refs = 0) : Leads loose floor heap (heap.reclaim index) := by
  rw [Heap.reclaim, found]
  exact (Leads.of_change (.vacate found unheld) rfl).trans (.releaseAll _ _)

/-! ## Runs -/

/-- The books are in order whatever a program has asked of a new heap. -/
theorem Runs.slabOrdered {config : Config} (run : Runs loose (.new config) heap) :
    heap.SlabOrdered :=
  ((run.leads (.new loose config) (Nat.zero_le _)).ordered
    (Proper.new loose config).toConsistent (.new config)).2.2.1

/-- The books are in order at the end of a run, and at every heap on the way from an earlier end.
A new cell gets a slot that nothing occupies.  Wherever a sweep stands, the books are in order, and
the cell that it reclaims was counted. -/
theorem Runs.slab_in_order {config : Config} (before : Runs loose (.new config) first)
    (after : Runs loose first heap) :
    heap.SlabOrdered ∧ heap.live + heap.freeSlots = heap.slots.size ∧
      first.slots.size ≤ heap.slots.size ∧
      Relation.ReflTransGen (OrderedStep loose 0) first heap ∧
      (∀ payload : Payload σ, heap.occupant? heap.vacancy = none ∧
        (heap.create payload).2.SlabOrdered ∧
        ∀ index, (heap.create payload).2.occupant? index =
          if index = heap.vacancy then some { payload } else heap.occupant? index) ∧
      (∀ limit? floor? visits progress, visits ≤ heap.slots.size →
        let visited := (sweepVisits limit? floor? visits progress heap).2
        visited.SlabOrdered ∧ heap.slots.size ≤ visited.slots.size ∧
          ∀ index cell, visited.occupant? index = some cell → cell.refs = 0 →
            0 < visited.live ∧ (visited.vacate index).SlabOrdered ∧
              (visited.reclaim index).SlabOrdered) ∧
      ∀ host : Host σ, host.RunsOn loose → ∀ depth callable arguments outcome called,
        exec host depth callable arguments heap = .ok (outcome, called) →
          called.SlabOrdered ∧ heap.slots.size ≤ called.slots.size := by
  obtain ⟨-, consistentFirst, orderedFirst, -⟩ :=
    (before.leads (.new loose config) (Nat.zero_le _)).ordered
      (Proper.new loose config).toConsistent (.new config)
  have proper := after.proper before.proper_new
  obtain ⟨chain, consistent, ordered, grown⟩ :=
    (after.leads before.proper_new (Nat.zero_le _)).ordered consistentFirst orderedFirst
  have onward : ∀ {heap'}, Leads loose 0 heap heap' →
      heap'.Consistent ∧ heap'.SlabOrdered ∧ heap.slots.size ≤ heap'.slots.size :=
    fun leads => (leads.ordered consistent ordered).2
  refine ⟨ordered, ordered.balance, grown, chain, fun payload => ?_,
    fun limit? floor? visits progress enough => ?_,
    fun host hosted depth callable arguments outcome called ran => ?_⟩
  · refine ⟨ordered.vacant, ?_, ordered.occupant?_create payload⟩
    -- any payload may be made, so the change is taken with containers that may hold anything
    have made : Leads True 0 heap (heap.create payload).2 := .create fun _ _ _ => trivial
    exact (made.ordered consistent ordered).2.2.1
  · obtain ⟨consistentThere, orderedThere, grownThere⟩ :=
      onward (Leads.sweepVisits limit? floor? progress enough)
    refine ⟨orderedThere, grownThere, fun index cell found unheld =>
      ⟨orderedThere.live_pos found, ?_, ?_⟩⟩
    · have vacating : Leads loose 0 _ (vacate _ index) := .of_change (.vacate found unheld) rfl
      exact (vacating.ordered consistentThere orderedThere).2.2.1
    · have reclaiming : Leads loose 0 _ (reclaim _ index) := .reclaim found unheld
      exact (reclaiming.ordered consistentThere orderedThere).2.2.1
  · have running := hosted.exec depth callable arguments heap called outcome ran proper
    exact (onward (running.leads proper (Nat.zero_le _))).2

/-- Two strings, and an array that holds the second of them. -/
def stocking : List (Request .bare) :=
  [.string "a", .string "b", .arrayOf [.cell ⟨1, 0⟩]]

theorem isSome_stocking : ((new {}).performAll? stocking).isSome = true := by
  decide +kernel

/-- The heap in which nobody holds the first string or the array. -/
def stocked : Heap .bare :=
  ((new {}).performAll? stocking).get isSome_stocking

/-- Both are swept away, and another string is made. -/
def restocked : Heap .bare :=
  ((stocked.sweep .full).2.string "c").2

theorem freed_slot_is_taken_again :
    Runs False (.new {}) stocked ∧ Runs False stocked restocked ∧
      stocked.live = 3 ∧ (stocked.sweep .full).2.free = [2, 0] ∧ restocked.live = 2 ∧
      restocked.free = [0] ∧ restocked.cursor = 3 ∧ restocked.live + restocked.freeSlots = 3 ∧
      restocked.occupant? restocked.vacancy = none := by
  have before : Runs False (.new {}) stocked :=
    Runs.refl.performAll? (Option.some_get isSome_stocking).symm
  have after : Runs False stocked restocked :=
    .request (.sweep .refl .full) (show perform _ (.string "c") = .ok _ from rfl)
  obtain ⟨-, balance, -, -, created, -⟩ := before.slab_in_order after
  refine ⟨before, after, by decide +kernel, by decide +kernel, by decide +kernel,
    by decide +kernel, by decide +kernel, balance.trans (by decide +kernel),
    (created .null).1⟩

end CountedHeap.Heap
