import CountedHeap.Proofs.SweepLog

/-!
Contract: what the budget of a sweep promises.

Counts change while a sweep goes on: a cell that is reclaimed releases its children, some of which
were visited already and some of which come later.  The promises hold whatever the counts are and
wherever the sweep before stopped; they rely on the books of the slab alone.

Owns:
- the budget is a bound on the examinations, and the floor a bound on what a sweep takes away;
- `WithinBudget`, which every sweep of a slab in order is;
- a slab in which counts change ahead of a sweep and behind it.

Does not own: what a sequence of sweeps does.
-/

namespace CountedHeap

/-! ## Bounds -/

theorem Budget.floor?_of_ne_full {budget : Budget} (bounded : budget ≠ .full) (config : Config) :
    budget.floor? config = some config.lowWater := by
  cases budget with
  | standard | batch => rfl
  | full => contradiction

theorem Budget.ne_full_of_limit? {budget : Budget} {config : Config} {limit : Nat}
    (found : budget.limit? config = some limit) : budget ≠ .full := by
  rintro rfl
  contradiction

namespace Heap

variable {σ : Signature} {heap : Heap σ}

section Bounds

variable {limit? floor? : Option Nat} {limit floor : Nat}

theorem examined_lt_of_not_done {progress : Progress}
    (going : ¬sweepDone (some limit) floor? progress heap = true) : progress.examined < limit := by
  by_contra reached
  exact going (sweepDone_iff.mpr (.inl ⟨limit, rfl, Nat.le_of_not_lt reached⟩))

theorem floor_lt_of_not_done {progress : Progress}
    (going : ¬sweepDone limit? (some floor) progress heap = true) : floor < heap.live := by
  by_contra low
  exact going (sweepDone_iff.mpr (.inr ⟨floor, rfl, Nat.le_of_not_lt low⟩))

/-- A visit examines one cell at most. -/
theorem length_examination?_le (heap : Heap σ) : heap.examination?.toList.length ≤ 1 := by
  cases heap.examination? <;> simp

/-- The budget is never overdrawn. -/
theorem examined_sweepVisits_le (floor? : Option Nat) (visits : Nat) {progress : Progress}
    (within : progress.examined ≤ limit) :
    (sweepVisits (some limit) floor? visits progress heap).1.examined ≤ limit := by
  induction visits generalizing progress heap with
  | zero => exact within
  | succ visits inductionHypothesis =>
      by_cases done : sweepDone (some limit) floor? progress heap = true
      · rwa [sweepVisits_of_done _ done]
      · rw [sweepVisits_succ _ done]
        apply inductionHypothesis
        have left := examined_lt_of_not_done done
        have one := length_examination?_le heap
        rw [examined_visit]
        omega

/-- A sweep that began above its floor does not go below it. -/
theorem SlabOrdered.floor_le_live (ordered : heap.SlabOrdered) (limit? : Option Nat) {visits : Nat}
    (progress : Progress) (within : visits ≤ heap.slots.size) :
    min heap.live floor ≤ (sweepVisits limit? (some floor) visits progress heap).2.live := by
  induction visits generalizing progress heap with
  | zero => exact Nat.min_le_left _ _
  | succ visits inductionHypothesis =>
      by_cases done : sweepDone limit? (some floor) progress heap = true
      · rw [sweepVisits_of_done _ done]
        exact Nat.min_le_left _ _
      · have above := floor_lt_of_not_done done
        have first := ordered.accounts_visit (Nat.zero_lt_of_lt within) progress
        have later := inductionHypothesis first.ordered (visit progress heap).1
          (first.size ▸ Nat.le_of_lt within)
        have reclaimed := (List.countP_le_length (p := Examination.unheld)).trans
          (length_examination?_le heap)
        have live : (visit progress heap).2.live + heap.examination?.toList.countP
            Examination.unheld = heap.live := first.live
        rw [sweepVisits_succ _ done]
        omega

end Bounds

/-! ## Budgets -/

/-- What a budget promises of a sweep. -/
structure WithinBudget (heap : Heap σ) (budget : Budget) : Prop where
  /-- No cell is examined twice. -/
  nodup : ((heap.sweepLog budget).map Examination.value).Nodup
  examined_eq : (heap.sweep budget).1.examined = (heap.sweepLog budget).length
  examined_le_limit : ∀ limit, budget.limit? heap.config = some limit →
    (heap.sweep budget).1.examined ≤ limit
  examined_le_live : (heap.sweep budget).1.examined ≤ heap.live
  freed_add_live : (heap.sweep budget).1.freed + (heap.sweep budget).2.live = heap.live
  live_eq : (heap.sweep budget).1.live = (heap.sweep budget).2.live
  /-- The cells that are reclaimed are those whose count was zero when they were visited. -/
  reclaimed_iff : ∀ value, heap.isLive value = true →
    ((heap.sweep budget).2.isLive value = false ↔ ⟨value, 0⟩ ∈ heap.sweepLog budget)
  /-- A bounded sweep respects the low-water mark after every one of its visits. -/
  floor_le : budget ≠ .full → ∀ visits ≤ heap.slots.size,
    min heap.live heap.config.lowWater ≤
      (sweepVisits (budget.limit? heap.config) (budget.floor? heap.config) visits {} heap).2.live
  floor_le_live : budget ≠ .full →
    min heap.live heap.config.lowWater ≤ (heap.sweep budget).2.live
  /-- Where some of the budget is left, every cell was examined or few enough are live. -/
  of_examined_lt : ∀ limit, budget.limit? heap.config = some limit →
    (heap.sweep budget).1.examined < limit →
      ((heap.sweepLog budget).map Examination.value).Perm heap.cellHandles ∨
        (heap.sweep budget).2.live ≤ heap.config.lowWater
  full_examines : budget = .full →
    ((heap.sweepLog budget).map Examination.value).Perm heap.cellHandles
  full_reclaims : budget = .full → ∀ value ∈ heap.cellHandles, heap.refs value = 0 →
    (heap.sweep budget).2.isLive value = false

theorem isLive_withAllocated (heap : Heap σ) (allocated : Nat) (value : Value) :
    { heap with allocated }.isLive value = heap.isLive value :=
  isLive_eq_of_cell?_eq ((SameCells.counters heap heap.cursor allocated).cell? value)

/-- Every sweep keeps its budget and its floor. -/
theorem SlabOrdered.sweep_within_budget (ordered : heap.SlabOrdered) (budget : Budget) :
    WithinBudget heap budget := by
  have accounts := ordered.accounts (budget.limit? heap.config) (budget.floor? heap.config) {}
    (Nat.le_refl _)
  have examined : (heap.sweep budget).1.examined = (heap.sweepLog budget).length :=
    accounts.examined.trans (Nat.zero_add _)
  have freed : (heap.sweep budget).1.freed =
      (heap.sweepLog budget).countP Examination.unheld :=
    accounts.freed.trans (Nat.zero_add _)
  have once : ((heap.sweepLog budget).map Examination.value).Subperm heap.cellHandles :=
    logVisits_subperm _ _ _ (Nat.le_refl _)
  have ends := endsWithin_or_logVisits_perm (budget.limit? heap.config)
    (budget.floor? heap.config) {} heap
  have floor_le : budget ≠ .full → ∀ visits ≤ heap.slots.size,
      min heap.live heap.config.lowWater ≤
        (sweepVisits (budget.limit? heap.config) (budget.floor? heap.config) visits {}
          heap).2.live := by
    intro bounded visits within
    rw [Budget.floor?_of_ne_full bounded]
    exact ordered.floor_le_live _ _ within
  refine
    { nodup := ?_
      examined_eq := examined
      examined_le_limit := fun limit found => ?_
      examined_le_live := ?_
      freed_add_live := ?_
      live_eq := rfl
      reclaimed_iff := fun value live => ?_
      floor_le := floor_le
      floor_le_live := fun bounded => floor_le bounded _ (Nat.le_refl _)
      of_examined_lt := fun limit found left => ?_
      full_examines := ?_
      full_reclaims := ?_ }
  · obtain ⟨_, perm, earlier⟩ := once
    exact perm.nodup_iff.mp (cellHandles_nodup.sublist earlier)
  · show (sweepVisits (budget.limit? heap.config) _ _ _ _).1.examined ≤ limit
    rw [found]
    exact examined_sweepVisits_le _ _ (Nat.zero_le _)
  · have short := once.length_le
    rwa [List.length_map, ← examined, ← ordered.live_eq_length] at short
  · rw [freed, Nat.add_comm]
    exact accounts.live
  · rw [sweep, isLive_withAllocated, ← Bool.not_eq_true, accounts.isLive]
    simp [live, sweepLog]
  · refine ends.symm.imp_right fun done => ?_
    obtain ⟨bound, isBound, reached⟩ | ⟨mark, isMark, low⟩ := sweepDone_iff.mp done
    · obtain rfl := Option.some.inj (found.symm.trans isBound)
      exact absurd left (Nat.not_lt.mpr reached)
    · have marked := Budget.floor?_of_ne_full (Budget.ne_full_of_limit? found) heap.config
      obtain rfl := Option.some.inj (marked.symm.trans isMark)
      exact low
  · rintro rfl
    exact ends.resolve_left Bool.false_ne_true
  · rintro rfl value member unheld
    rw [cellHandles_eq, List.mem_filterMap] at member
    obtain ⟨index, -, shown⟩ := member
    obtain ⟨id, -, rfl, -⟩ := handleAt?_eq_some_iff.mp shown
    exact not_isLive_sweep_full unheld

/-- Two strings, an array that holds the second of them, and two more strings. -/
def scattering : List (Request .bare) :=
  [.string "a", .string "b", .arrayOf [.cell ⟨1, 0⟩], .string "c", .string "d"]

theorem isSome_scattering : ((new { lowWater := 2 }).performAll? scattering).isSome = true := by
  decide +kernel

/-- The first string was swept away, an array that holds the third took its place, and a sweep of
two cells left one slot empty and stopped before the last two strings. -/
def scattered : Heap .bare :=
  let first := (((new { lowWater := 2 }).performAll? scattering).get isSome_scattering).sweep
    (.batch 1)
  ((first.2.arrayOf [.cell ⟨3, 0⟩]).2.sweep (.batch 2)).2

theorem runs_scattered : Runs False (.new { lowWater := 2 }) scattered :=
  .sweep (.request (.sweep (Runs.refl.performAll? (Option.some_get isSome_scattering).symm) _)
    (show perform _ (.arrayOf [.cell ⟨3, 0⟩]) = .ok _ from rfl)) (.batch 2)

/-- The string in slot 3 is held when it is examined and not any more when the round ends. -/
theorem scattered_sweeps :
    scattered.SlabOrdered ∧ scattered.live = 4 ∧ scattered.cursor = 3 ∧ scattered.free = [2] ∧
      WithinBudget scattered (.batch 10) ∧
      scattered.sweepLog (.batch 10) =
        [⟨.cell ⟨3, 0⟩, 1⟩, ⟨.cell ⟨4, 0⟩, 0⟩, ⟨.cell ⟨0, 1⟩, 0⟩] ∧
      (scattered.sweep (.batch 10)).1 = ⟨3, 2, 2⟩ ∧
      WithinBudget scattered .full ∧ (scattered.sweep .full).1 = ⟨4, 3, 1⟩ ∧
      (scattered.sweep .full).2.isLive (.cell ⟨3, 0⟩) = true := by
  have ordered := runs_scattered.slabOrdered
  exact ⟨ordered, by decide +kernel, by decide +kernel, by decide +kernel,
    ordered.sweep_within_budget (.batch 10), by decide +kernel, by decide +kernel,
    ordered.sweep_within_budget .full, by decide +kernel, by decide +kernel⟩

end Heap

end CountedHeap
