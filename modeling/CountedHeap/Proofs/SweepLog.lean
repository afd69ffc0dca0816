import CountedHeap.Proofs.Slab

/-!
Contract: what a sweep examines, in order.

Owns:
- the examination that a visit makes, and the log of a whole sweep;
- one visit keeps the books of the slab in order, and what it does to the live count, to the
  progress and to every handle;
- the slots that come next, once round the slab: a sweep examines their cells in this order, up to
  where it ends;
- the progress, the live count and the surviving handles at the end are read off the log.

Does not own: what a budget promises.
-/

namespace CountedHeap

/-- An occupied slot that a sweep came to: its cell, and the count of the cell at that time. -/
structure Examination where
  value : Value
  refs : Nat
deriving DecidableEq, Repr

/-- Whether the cell was found to be held by nobody. -/
def Examination.unheld (examination : Examination) : Bool :=
  examination.refs == 0

namespace Heap

variable {σ : Signature} {heap heap' : Heap σ}

/-- What the next visit examines, if it comes to an occupied slot. -/
def examination? (heap : Heap σ) : Option Examination :=
  (heap.occupant? heap.nextVisit).map fun cell =>
    { value := heap.occupantHandle heap.nextVisit, refs := cell.refs }

/-- What the visits of `sweepVisits` examine. -/
def logVisits (limit? floor? : Option Nat) : Nat → Progress → Heap σ → List Examination
  | 0, _, _ => []
  | visits + 1, progress, heap =>
      if sweepDone limit? floor? progress heap then []
      else
        heap.examination?.toList ++
          logVisits limit? floor? visits (visit progress heap).1 (visit progress heap).2

/-- What a sweep examines. -/
def sweepLog (heap : Heap σ) (budget : Budget) : List Examination :=
  logVisits (budget.limit? heap.config) (budget.floor? heap.config) heap.slots.size {} heap

/-- Whether a sweep is done by its own tests after so many visits. -/
def endsWithin (limit? floor? : Option Nat) (visits : Nat) (progress : Progress) (heap : Heap σ) :
    Bool :=
  let last := sweepVisits limit? floor? visits progress heap
  sweepDone limit? floor? last.1 last.2

/-- The handle of the cell in a slot, if the slot is occupied. -/
def handleAt? (heap : Heap σ) (index : Nat) : Option Value :=
  (heap.occupant? index).map fun _ => heap.occupantHandle index

/-! ## The handles, slot by slot -/

theorem cellHandles_eq (heap : Heap σ) :
    heap.cellHandles = (List.range heap.slots.size).filterMap heap.handleAt? := by
  apply List.filterMap_congr
  intro index _
  unfold handleAt? occupantHandle occupant?
  cases heap.slots[index]? <;> rfl

theorem handleAt?_eq_some_iff {index : Nat} {value : Value} :
    heap.handleAt? index = some value ↔
      ∃ id : CellId, id.index = index ∧ value = .cell id ∧ heap.isLive value = true := by
  constructor
  · intro found
    obtain ⟨cell, occupied, rfl⟩ := Option.map_eq_some_iff.mp found
    have live : heap.isLive (heap.occupantHandle index) = true :=
      isLive_of_cell? ((cell?_occupantHandle index).trans occupied)
    obtain ⟨slot, slotFound, -⟩ := Option.bind_eq_some_iff.mp occupied
    have handle : heap.occupantHandle index = .cell ⟨index, slot.generation⟩ := by
      rw [occupantHandle, slotFound]
    exact ⟨⟨index, slot.generation⟩, rfl, handle, live⟩
  · rintro ⟨id, rfl, rfl, live⟩
    obtain ⟨cell, found⟩ := isLive_iff.mp live
    obtain ⟨occupied, handle, -⟩ := occupant?_of_cell? found
    rw [handleAt?, occupied, ← handle]
    rfl

theorem handleAt?_eq_none_iff {index : Nat} :
    heap.handleAt? index = none ↔ heap.occupant? index = none :=
  Option.map_eq_none_iff

/-- A slot shows the same handle as long as the same handles are live. -/
theorem handleAt?_congr {index : Nat}
    (live : ∀ id : CellId, id.index = index →
      heap'.isLive (.cell id) = heap.isLive (.cell id)) :
    heap'.handleAt? index = heap.handleAt? index := by
  apply Option.ext
  intro value
  rw [handleAt?_eq_some_iff, handleAt?_eq_some_iff]
  constructor
  · rintro ⟨id, place, rfl, isLive⟩
    exact ⟨id, place, rfl, live id place ▸ isLive⟩
  · rintro ⟨id, place, rfl, isLive⟩
    exact ⟨id, place, rfl, (live id place).symm ▸ isLive⟩

theorem handleAt?_vacate (heap : Heap σ) (index other : Nat) :
    (heap.vacate index).handleAt? other = if other = index then none else heap.handleAt? other := by
  by_cases here : other = index
  · rw [if_pos here, handleAt?_eq_none_iff, here, occupant?, vacate]
    simp only [Array.getElem?_modify, if_true]
    cases heap.slots[index]? <;> rfl
  · rw [if_neg here, handleAt?, handleAt?, occupant?, occupant?, occupantHandle, occupantHandle,
      vacate]
    simp only [Array.getElem?_modify, if_neg (Ne.symm here)]

/-- Releasing values changes nothing but cells. -/
theorem exists_releaseAll_eq (heap : Heap σ) (values : List Value) :
    ∃ slots scratch, heap.releaseAll values = { heap with slots, scratch } := by
  induction values generalizing heap with
  | nil => exact ⟨_, _, rfl⟩
  | cons value rest inductionHypothesis =>
      obtain ⟨slots, scratch, released⟩ := inductionHypothesis (heap.release value)
      refine ⟨slots, scratch, released.trans ?_⟩
      cases value <;> rfl

/-- As many cells are live as there are handles of live cells. -/
theorem SlabOrdered.live_eq_length (ordered : heap.SlabOrdered) :
    heap.live = heap.cellHandles.length := by
  rw [ordered.live_eq, cellHandles_eq, List.length_filterMap_eq_countP, occupied]
  refine List.countP_congr fun index _ => ?_
  rw [handleAt?, Option.isSome_map]

/-! ## One visit -/

/-- A visit passes over an empty slot, examines a cell that is held, or examines and reclaims a
cell that nobody holds. -/
theorem visit_effect (progress : Progress) (heap : Heap σ) :
    (heap.examination? = none ∧
      visit progress heap = (progress, { heap with cursor := heap.nextVisit + 1 })) ∨
    (∃ cell, heap.occupant? heap.nextVisit = some cell ∧ cell.refs ≠ 0 ∧
      heap.examination? = some ⟨heap.occupantHandle heap.nextVisit, cell.refs⟩ ∧
      visit progress heap =
        ({ progress with examined := progress.examined + 1 },
          { heap with cursor := heap.nextVisit + 1 })) ∨
    ∃ cell, heap.occupant? heap.nextVisit = some cell ∧
      heap.examination? = some ⟨heap.occupantHandle heap.nextVisit, 0⟩ ∧
      visit progress heap =
        (⟨progress.examined + 1, progress.freed + 1⟩,
          { (heap.vacate heap.nextVisit).releaseAll cell.payload.children with
            cursor := heap.nextVisit + 1 }) := by
  unfold visit examination?
  simp only
  cases occupied : heap.occupant? heap.nextVisit with
  | none => exact .inl ⟨rfl, rfl⟩
  | some cell =>
      by_cases unheld : cell.refs = 0
      · refine .inr (.inr ⟨cell, rfl, ?_, ?_⟩)
        · rw [Option.map_some, unheld]
        · simp only [if_pos unheld]
          rw [reclaim, occupied]
      · refine .inr (.inl ⟨cell, rfl, unheld, rfl, ?_⟩)
        simp only [if_neg unheld]

theorem examined_visit (progress : Progress) (heap : Heap σ) :
    (visit progress heap).1.examined =
      progress.examined + heap.examination?.toList.length := by
  rcases visit_effect progress heap with
    ⟨examination, visited⟩ | ⟨_, -, -, examination, visited⟩ | ⟨_, -, examination, visited⟩ <;>
  · rw [examination, visited]
    rfl

theorem freed_visit (progress : Progress) (heap : Heap σ) :
    (visit progress heap).1.freed =
      progress.freed + heap.examination?.toList.countP Examination.unheld := by
  rcases visit_effect progress heap with
    ⟨examination, visited⟩ | ⟨cell, -, held, examination, visited⟩ |
      ⟨_, -, examination, visited⟩
  · rw [examination, visited]
    rfl
  · have notUnheld : Examination.unheld ⟨heap.occupantHandle heap.nextVisit, cell.refs⟩ = false :=
      beq_false_of_ne held
    rw [examination, visited, Option.toList_some, List.countP_singleton, notUnheld]
    rfl
  · rw [examination, visited]
    rfl

/-- The visit that examines a cell and finds that nobody holds it is the one that ends it. -/
theorem isLive_visit_iff (progress : Progress) (heap : Heap σ) (value : Value) :
    (visit progress heap).2.isLive value = true ↔
      heap.isLive value = true ∧ ⟨value, 0⟩ ∉ heap.examination?.toList := by
  rcases visit_effect progress heap with
    ⟨examination, visited⟩ | ⟨cell, -, held, examination, visited⟩ |
      ⟨cell, -, examination, visited⟩
  · rw [examination, visited, isLive_eq_of_cell?_eq (cell?_withCursor _ _ _)]
    simp
  · rw [examination, visited, isLive_eq_of_cell?_eq (cell?_withCursor _ _ _)]
    simp [Ne.symm held]
  · rw [examination, visited, isLive_eq_of_cell?_eq (cell?_withCursor _ _ _), isLive_releaseAll,
      isLive, cell?_vacate]
    by_cases here : value = heap.occupantHandle heap.nextVisit
    · simp [here]
    · simp [here, isLive]

/-- A visit leaves the other slots as they are. -/
theorem handleAt?_visit (progress : Progress) {index : Nat} (elsewhere : index ≠ heap.nextVisit) :
    (visit progress heap).2.handleAt? index = heap.handleAt? index := by
  apply handleAt?_congr
  rintro id rfl
  rw [Bool.eq_iff_iff, isLive_visit_iff]
  refine and_iff_left fun member => ?_
  obtain ⟨cell, -, examined⟩ := Option.map_eq_some_iff.mp (Option.mem_toList.mp member)
  have handle : heap.occupantHandle heap.nextVisit = .cell id :=
    congrArg Examination.value examined
  unfold occupantHandle at handle
  split at handle
  next => exact elsewhere (congrArg CellId.index (Value.cell.inj handle)).symm
  next => contradiction

theorem map_value_examination? (heap : Heap σ) :
    heap.examination?.toList.map Examination.value =
      (heap.handleAt? heap.nextVisit).toList := by
  unfold examination? handleAt?
  cases heap.occupant? heap.nextVisit <;> rfl

/-- Emptying an occupied slot keeps the books in order. -/
theorem SlabOrdered.vacate (ordered : heap.SlabOrdered) {index : Nat} {cell : Cell σ}
    (occupied : heap.occupant? index = some cell) : (heap.vacate index).SlabOrdered := by
  have size : (heap.vacate index).slots.size = heap.slots.size := Array.size_modify
  have inside := lt_size_of_occupant? occupied
  have nodup : (heap.vacate index).free.Nodup := by
    refine List.nodup_cons.mpr ⟨fun listed => ?_, ordered.free_nodup⟩
    rw [((ordered.mem_free index).mp listed).2] at occupied
    contradiction
  have members : ∀ other, other ∈ (heap.vacate index).free ↔
      other < (heap.vacate index).slots.size ∧ (heap.vacate index).occupant? other = none := by
    intro other
    rw [size, ← handleAt?_eq_none_iff, handleAt?_vacate]
    refine List.mem_cons.trans ?_
    by_cases here : other = index
    · simp [here, inside]
    · rw [if_neg here, handleAt?_eq_none_iff, ← ordered.mem_free]
      exact or_iff_right here
  refine ⟨?_, nodup, members, size ▸ ordered.cursor_le⟩
  have counted := ordered.live_pos occupied
  have before := ordered.balance
  have after := occupied_add_length_free nodup members
  have freed : (heap.vacate index).free.length = heap.free.length + 1 := rfl
  show heap.live - 1 = _
  omega

theorem SlabOrdered.releaseAll (ordered : heap.SlabOrdered) (values : List Value) :
    (heap.releaseAll values).SlabOrdered := by
  have same : ∀ index, (heap.releaseAll values).occupant? index = none ↔
      heap.occupant? index = none := fun index => by
    rw [← handleAt?_eq_none_iff, ← handleAt?_eq_none_iff,
      handleAt?_congr fun id _ => isLive_releaseAll heap values (.cell id)]
  have size := size_releaseAll heap values
  have occupied : (heap.releaseAll values).occupied = heap.occupied := by
    rw [Heap.occupied, Heap.occupied, size]
    refine List.countP_congr fun index _ => ?_
    rw [Option.isSome_iff_ne_none, Option.isSome_iff_ne_none]
    exact not_congr (same index)
  obtain ⟨slots, scratch, released⟩ := exists_releaseAll_eq heap values
  refine ⟨?_, ?_, fun index => ?_, ?_⟩
  · rw [occupied, released]
    exact ordered.live_eq
  · rw [released]
    exact ordered.free_nodup
  · rw [size, same, released]
    exact ordered.mem_free index
  · rw [size, released]
    exact ordered.cursor_le

theorem SlabOrdered.withCursor (ordered : heap.SlabOrdered) {cursor : Nat}
    (inside : cursor ≤ heap.slots.size) : { heap with cursor }.SlabOrdered :=
  ⟨ordered.live_eq, ordered.free_nodup, ordered.mem_free, inside⟩

/-- A visit keeps the books in order. -/
theorem slabOrdered_visit (ordered : heap.SlabOrdered) (nonempty : 0 < heap.slots.size)
    (progress : Progress) : (visit progress heap).2.SlabOrdered := by
  have inside : heap.nextVisit + 1 ≤ heap.slots.size := nextVisit_lt nonempty
  rcases visit_effect progress heap with
    ⟨-, visited⟩ | ⟨_, -, -, -, visited⟩ | ⟨cell, occupied, -, visited⟩
  · exact visited ▸ ordered.withCursor inside
  · exact visited ▸ ordered.withCursor inside
  · rw [visited]
    refine ((ordered.vacate occupied).releaseAll cell.payload.children).withCursor ?_
    rw [size_releaseAll]
    exact inside.trans_eq Array.size_modify.symm

/-- The cells that a visit frees are those that are not live any more. -/
theorem SlabOrdered.live_visit (ordered : heap.SlabOrdered) (progress : Progress) :
    (visit progress heap).2.live + (visit progress heap).1.freed = heap.live + progress.freed := by
  rcases visit_effect progress heap with
    ⟨-, visited⟩ | ⟨_, -, -, -, visited⟩ | ⟨cell, occupied, -, visited⟩
  · rw [visited]
  · rw [visited]
  · obtain ⟨slots, scratch, released⟩ :=
      exists_releaseAll_eq (heap.vacate heap.nextVisit) cell.payload.children
    have counted := ordered.live_pos occupied
    rw [visited, released]
    show heap.live - 1 + (progress.freed + 1) = heap.live + progress.freed
    omega

/-- The log accounts for all that happened between two stages of a sweep. -/
structure Accounts (log : List Examination) (before after : Progress × Heap σ) : Prop where
  ordered : after.2.SlabOrdered
  size : after.2.slots.size = before.2.slots.size
  examined : after.1.examined = before.1.examined + log.length
  freed : after.1.freed = before.1.freed + log.countP Examination.unheld
  live : after.2.live + log.countP Examination.unheld = before.2.live
  isLive : ∀ value, after.2.isLive value = true ↔
    before.2.isLive value = true ∧ ⟨value, 0⟩ ∉ log

variable {log further : List Examination} {before between after : Progress × Heap σ}

theorem Accounts.refl (ordered : before.2.SlabOrdered) : Accounts [] before before :=
  ⟨ordered, rfl, rfl, rfl, rfl, fun _ => by simp⟩

theorem Accounts.trans (first : Accounts log before between)
    (second : Accounts further between after) : Accounts (log ++ further) before after where
  ordered := second.ordered
  size := second.size.trans first.size
  examined := by rw [second.examined, first.examined, List.length_append, Nat.add_assoc]
  freed := by rw [second.freed, first.freed, List.countP_append, Nat.add_assoc]
  live := by
    rw [List.countP_append, ← first.live, ← second.live]
    omega
  isLive value := by
    rw [second.isLive, first.isLive, and_assoc, List.mem_append, not_or]

theorem SlabOrdered.accounts_visit (ordered : heap.SlabOrdered) (nonempty : 0 < heap.slots.size)
    (progress : Progress) :
    Accounts heap.examination?.toList (progress, heap) (visit progress heap) where
  ordered := slabOrdered_visit ordered nonempty progress
  size := size_visit progress heap
  examined := examined_visit progress heap
  freed := freed_visit progress heap
  live := by
    have counted := ordered.live_visit progress
    rw [freed_visit] at counted
    show (visit progress heap).2.live + _ = heap.live
    omega
  isLive := isLive_visit_iff progress heap

/-! ## Once round the slab -/

/-- The slot that is visited after so many others. -/
def ahead (heap : Heap σ) (steps : Nat) : Nat :=
  if heap.nextVisit + steps < heap.slots.size then heap.nextVisit + steps
  else heap.nextVisit + steps - heap.slots.size

/-- The slots that the next visits come to, in order. -/
def upcoming (heap : Heap σ) (count : Nat) : List Nat :=
  (List.range count).map heap.ahead

theorem ahead_visit (progress : Progress) {steps : Nat} (within : steps < heap.slots.size) :
    (visit progress heap).2.ahead steps = heap.ahead (steps + 1) := by
  have position := nextVisit_lt (Nat.zero_lt_of_lt within)
  unfold ahead
  rw [nextVisit_visit, size_visit]
  split <;> split <;> split <;> omega

theorem upcoming_succ (progress : Progress) {count : Nat} (within : count < heap.slots.size) :
    heap.upcoming (count + 1) = heap.nextVisit :: (visit progress heap).2.upcoming count := by
  have position := nextVisit_lt (Nat.zero_lt_of_lt within)
  unfold upcoming
  rw [List.range_succ_eq_map, List.map_cons, List.map_map]
  congr 1
  · unfold ahead
    rw [Nat.add_zero, if_pos position]
  · apply List.map_congr_left
    intro steps member
    exact (ahead_visit progress ((List.mem_range.mp member).trans within)).symm

/-- No slot is visited twice in one round. -/
theorem nodup_upcoming {count : Nat} (within : count ≤ heap.slots.size) :
    (heap.upcoming count).Nodup := by
  refine List.Nodup.map_on ?_ List.nodup_range
  intro first firstMember second secondMember same
  have firstWithin := List.mem_range.mp firstMember
  have secondWithin := List.mem_range.mp secondMember
  have position : heap.nextVisit < heap.slots.size := nextVisit_lt (by omega)
  unfold ahead at same
  split at same <;> split at same <;> omega

/-- A round comes to every slot. -/
theorem upcoming_perm (heap : Heap σ) :
    (heap.upcoming heap.slots.size).Perm (List.range heap.slots.size) := by
  apply (List.perm_ext_iff_of_nodup (nodup_upcoming (Nat.le_refl _)) List.nodup_range).mpr
  intro index
  rw [upcoming, List.mem_map, List.mem_range]
  constructor
  · rintro ⟨steps, member, rfl⟩
    have within := List.mem_range.mp member
    have position := nextVisit_lt (Nat.zero_lt_of_lt within)
    unfold ahead
    split <;> omega
  · intro inside
    have position := nextVisit_lt (Nat.zero_lt_of_lt inside)
    refine ⟨visitsBefore heap.slots.size heap.nextVisit index, List.mem_range.mpr ?_, ?_⟩
    · unfold visitsBefore
      split <;> omega
    · unfold ahead visitsBefore
      split <;> split <;> omega

/-- In a round the slots show every long-lived cell once. -/
theorem upcoming_filterMap_perm (heap : Heap σ) :
    ((heap.upcoming heap.slots.size).filterMap heap.handleAt?).Perm heap.cellHandles :=
  cellHandles_eq heap ▸ (upcoming_perm heap).filterMap _

/-! ## All visits -/

section Visits

variable {limit? floor? : Option Nat} {progress : Progress}

theorem sweepDone_iff :
    sweepDone limit? floor? progress heap = true ↔
      (∃ limit, limit? = some limit ∧ limit ≤ progress.examined) ∨
        ∃ floor, floor? = some floor ∧ heap.live ≤ floor := by
  simp only [sweepDone, Bool.or_eq_true, Option.any_eq_true, decide_eq_true_eq]

theorem sweepVisits_of_done (visits : Nat)
    (done : sweepDone limit? floor? progress heap = true) :
    sweepVisits limit? floor? visits progress heap = (progress, heap) := by
  cases visits with
  | zero => rfl
  | succ visits => exact if_pos done

theorem logVisits_of_done (visits : Nat)
    (done : sweepDone limit? floor? progress heap = true) :
    logVisits limit? floor? visits progress heap = [] := by
  cases visits with
  | zero => rfl
  | succ visits => exact if_pos done

theorem sweepVisits_succ (visits : Nat)
    (going : ¬sweepDone limit? floor? progress heap = true) :
    sweepVisits limit? floor? (visits + 1) progress heap =
      sweepVisits limit? floor? visits (visit progress heap).1 (visit progress heap).2 :=
  if_neg going

theorem logVisits_succ (visits : Nat)
    (going : ¬sweepDone limit? floor? progress heap = true) :
    logVisits limit? floor? (visits + 1) progress heap =
      heap.examination?.toList ++
        logVisits limit? floor? visits (visit progress heap).1 (visit progress heap).2 :=
  if_neg going

theorem endsWithin_of_done (visits : Nat)
    (done : sweepDone limit? floor? progress heap = true) :
    endsWithin limit? floor? visits progress heap = true := by
  rw [endsWithin, sweepVisits_of_done _ done]
  exact done

theorem endsWithin_succ (visits : Nat)
    (going : ¬sweepDone limit? floor? progress heap = true) :
    endsWithin limit? floor? (visits + 1) progress heap =
      endsWithin limit? floor? visits (visit progress heap).1 (visit progress heap).2 := by
  rw [endsWithin, endsWithin, sweepVisits_succ _ going]

/-- The log accounts for the sweep. -/
theorem SlabOrdered.accounts (ordered : heap.SlabOrdered) (limit? floor? : Option Nat)
    {visits : Nat} (progress : Progress) (within : visits ≤ heap.slots.size) :
    Accounts (logVisits limit? floor? visits progress heap) (progress, heap)
      (sweepVisits limit? floor? visits progress heap) := by
  induction visits generalizing progress heap with
  | zero => exact .refl ordered
  | succ visits inductionHypothesis =>
      by_cases done : sweepDone limit? floor? progress heap = true
      · rw [sweepVisits_of_done _ done, logVisits_of_done _ done]
        exact .refl ordered
      · have first := ordered.accounts_visit (Nat.zero_lt_of_lt within) progress
        rw [sweepVisits_succ _ done, logVisits_succ _ done]
        refine first.trans (inductionHypothesis first.ordered _ ?_)
        rw [size_visit]
        exact Nat.le_of_lt within

/-- A sweep examines the cells of the slots that come next, in their order, and stops short of
the last visit only when it is done. -/
theorem exists_logVisits_values (limit? floor? : Option Nat) {visits : Nat} (progress : Progress)
    (within : visits ≤ heap.slots.size) :
    ∃ count ≤ visits,
      (logVisits limit? floor? visits progress heap).map Examination.value =
          (heap.upcoming count).filterMap heap.handleAt? ∧
        (count = visits ∨ endsWithin limit? floor? visits progress heap = true) := by
  induction visits generalizing progress heap with
  | zero => exact ⟨0, Nat.le_refl _, rfl, .inl rfl⟩
  | succ visits inductionHypothesis =>
      by_cases done : sweepDone limit? floor? progress heap = true
      · refine ⟨0, Nat.zero_le _, ?_, .inr ?_⟩
        · rw [logVisits_of_done _ done]
          rfl
        · exact endsWithin_of_done _ done
      · have size := size_visit progress heap
        obtain ⟨count, visited, values, stopped⟩ := inductionHypothesis
          (visit progress heap).1 (size ▸ Nat.le_of_lt within)
        refine ⟨count + 1, Nat.succ_le_succ visited, ?_, ?_⟩
        · have nodup := nodup_upcoming (Nat.lt_of_le_of_lt visited within)
          rw [upcoming_succ progress (Nat.lt_of_le_of_lt visited within)] at nodup ⊢
          have later : ((visit progress heap).2.upcoming count).filterMap
                (visit progress heap).2.handleAt? =
              ((visit progress heap).2.upcoming count).filterMap heap.handleAt? := by
            refine List.filterMap_congr fun index member => handleAt?_visit progress ?_
            rintro rfl
            exact (List.nodup_cons.mp nodup).1 member
          rw [logVisits_succ _ done, List.map_append, map_value_examination?, values, later,
            List.filterMap_cons]
          cases heap.handleAt? heap.nextVisit <;> rfl
        · rw [endsWithin_succ _ done]
          exact stopped.imp_left fun all => congrArg Nat.succ all

/-- Within a round no cell is examined twice, and only cells that were live at its start. -/
theorem logVisits_subperm (limit? floor? : Option Nat) {visits : Nat} (progress : Progress)
    (within : visits ≤ heap.slots.size) :
    ((logVisits limit? floor? visits progress heap).map Examination.value).Subperm
      heap.cellHandles := by
  obtain ⟨count, visited, values, -⟩ :=
    exists_logVisits_values limit? floor? progress within
  have earlier : (heap.upcoming count).Sublist (heap.upcoming heap.slots.size) :=
    (List.range_sublist.mpr (visited.trans within)).map _
  rw [values]
  exact (earlier.filterMap _).subperm.trans (upcoming_filterMap_perm heap).subperm

/-- A round ends because the sweep is done, or else every cell was examined. -/
theorem endsWithin_or_logVisits_perm (limit? floor? : Option Nat) (progress : Progress)
    (heap : Heap σ) :
    endsWithin limit? floor? heap.slots.size progress heap = true ∨
      ((logVisits limit? floor? heap.slots.size progress heap).map Examination.value).Perm
        heap.cellHandles := by
  obtain ⟨count, -, values, rfl | done⟩ :=
    exists_logVisits_values limit? floor? progress (Nat.le_refl heap.slots.size)
  · exact .inr (values ▸ upcoming_filterMap_perm heap)
  · exact .inl done

end Visits

end Heap

end CountedHeap
