import CountedHeap.Proofs.Scripts
import CountedHeap.Proofs.Traces
import Mathlib.Data.List.Flatten
import Mathlib.Data.List.Perm.Subperm

/-!
Contract: what a series of sweeps reclaims does not depend on how the sweeps are made.

Whether a cell can be reclaimed depends on its count and on which holders are gone, and not on
the slot where a sweep begins or on where it stops.  Counts need not be exact, and cells may refer
to themselves, to each other, or to nothing.

Owns:
- plans of sweeps, and when there is nothing left to reclaim;
- orders in which cells can be reclaimed, and the heap that each leaves;
- every sweep reclaims in such an order, and where nothing is left to reclaim the order has all
  cells that any order has.

Does not own: which cells these are where counts are exact.
-/

namespace CountedHeap

/-- How one sweep of a series is made: how the heap is tuned for it, where it begins, and how much
it examines. -/
structure SweepPlan where
  sweepBatch : Nat
  lowWater : Nat
  cursor : Nat
  budget : Budget
deriving DecidableEq, Repr

namespace Heap

variable {σ : Signature} {heap heap' heap'' : Heap σ} {gone gone' : List Value}

/-- The heap after a sweep by a plan. -/
def sweepBy (heap : Heap σ) (plan : SweepPlan) : Heap σ :=
  let tuned := (heap.setSweepBatch plan.sweepBatch).setLowWater plan.lowWater
  ({ tuned with cursor := plan.cursor }.sweep plan.budget).2

/-- The heap after a series of sweeps with nothing in between. -/
def sweepAll (heap : Heap σ) (plans : List SweepPlan) : Heap σ :=
  plans.foldl sweepBy heap

/-- No long-lived cell has the count zero. -/
def SweptOut (heap : Heap σ) : Prop :=
  ∀ value ∈ heap.cellHandles, heap.refs value ≠ 0

instance (heap : Heap σ) : Decidable heap.SweptOut :=
  inferInstanceAs (Decidable (∀ value ∈ heap.cellHandles, heap.refs value ≠ 0))

/-! ## Orders of reclaiming -/

/-- Cells that can be reclaimed one after another: what each is counted for is no more than what
those before it refer to. -/
inductive Unravels (heap : Heap σ) : List Value → Prop
  | nil : Unravels heap []
  | snoc {gone : List Value} {value : Value} (before : Unravels heap gone)
      (remains : value ∉ gone) (live : value ∈ heap.cellHandles)
      (freed : heap.refs value ≤ (gone.flatMap heap.children).count value) :
      Unravels heap (gone ++ [value])

/-- The cell of a handle when some holders are gone: what they referred to is counted no more. -/
def cellWithout? (heap : Heap σ) (gone : List Value) (value : Value) : Option (Cell σ) :=
  if value ∈ gone then none
  else (heap.cell? value).map fun cell =>
    { cell with refs := cell.refs - (gone.flatMap heap.children).count value }

theorem cellWithout?_perm (perm : gone.Perm gone') (value : Value) :
    heap.cellWithout? gone value = heap.cellWithout? gone' value := by
  simp only [cellWithout?, perm.mem_iff, (perm.flatMap_right heap.children).count_eq]

/-- One more holder is gone. -/
theorem cellWithout?_append_singleton (gone : List Value) (last value : Value) :
    heap.cellWithout? (gone ++ [last]) value =
      if value = last then none
      else (heap.cellWithout? gone value).map fun cell =>
        { cell with refs := cell.refs - (heap.children last).count value } := by
  simp only [cellWithout?, List.mem_append, List.mem_singleton, List.flatMap_append,
    List.count_append, List.flatMap_singleton]
  by_cases isLast : value = last
  · rw [if_pos (.inr isLast), if_pos isLast]
  · rw [if_neg isLast]
    by_cases inside : value ∈ gone
    · rw [if_pos (.inl inside), if_pos inside, Option.map_none]
    · rw [if_neg (not_or.mpr ⟨inside, isLast⟩), if_neg inside, Option.map_map]
      simp only [Function.comp_def, Nat.sub_sub]

/-- One heap is left of another when some cells are reclaimed in an order that is possible. -/
structure Leaves (heap heap' : Heap σ) (gone : List Value) : Prop where
  unravels : heap.Unravels gone
  cells : ∀ value, heap'.cell? value = heap.cellWithout? gone value

theorem Unravels.nodup (unravels : heap.Unravels gone) : gone.Nodup := by
  induction unravels with
  | nil => exact List.nodup_nil
  | snoc _ remains _ _ inductionHypothesis =>
      exact inductionHypothesis.append (List.nodup_singleton _)
        (List.disjoint_singleton.mpr remains)

/-- More holders that are gone account for no fewer references. -/
theorem count_flatMap_le (children : Value → List Value) (distinct : gone.Nodup)
    (subset : gone ⊆ gone') (value : Value) :
    (gone.flatMap children).count value ≤ (gone'.flatMap children).count value := by
  obtain ⟨same, perm, sublist⟩ := distinct.subperm subset
  rw [← (perm.flatMap_right children).count_eq value]
  exact (sublist.flatMap children).count_le value

/-- Where nothing is left to reclaim, whatever can be reclaimed in any order is gone.  The
induction follows the other order: what is freed by the cells before it is freed here as well,
where they are gone by induction. -/
theorem Leaves.subset_of_sweptOut (leaves : Leaves heap heap' gone') (sweptOut : heap'.SweptOut)
    (unravels : heap.Unravels gone) : gone ⊆ gone' := by
  induction unravels with
  | nil => exact List.nil_subset _
  | @snoc gone value before remains live freed inductionHypothesis =>
      apply List.append_subset.mpr
        ⟨inductionHypothesis, List.cons_subset.mpr ⟨?_, List.nil_subset _⟩⟩
      by_contra stays
      obtain ⟨durable, isLive⟩ := mem_cellHandles_iff.mp live
      obtain ⟨cell, found⟩ := isLive_iff.mp isLive
      have left := leaves.cells value
      rw [cellWithout?, if_neg stays, found] at left
      apply sweptOut value (mem_cellHandles_iff.mpr ⟨durable, isLive_of_cell? left⟩)
      have counted := count_flatMap_le heap.children before.nodup inductionHypothesis value
      rw [refs, found] at freed
      rw [refs, left]
      exact Nat.sub_eq_zero_of_le (freed.trans counted)

/-- Two heaps that are left of one, with nothing left to reclaim in either, have the same cells. -/
theorem Leaves.cell?_eq_of_sweptOut (first : Leaves heap heap' gone)
    (second : Leaves heap heap'' gone') (sweptOut : heap'.SweptOut) (sweptOut' : heap''.SweptOut)
    (value : Value) : heap'.cell? value = heap''.cell? value := by
  have forward := second.subset_of_sweptOut sweptOut' first.unravels
  have backward := first.subset_of_sweptOut sweptOut second.unravels
  have perm : gone.Perm gone' :=
    (List.perm_ext_iff_of_nodup first.unravels.nodup second.unravels.nodup).mpr
      fun _ => ⟨fun member => forward member, fun member => backward member⟩
  rw [first.cells, second.cells, cellWithout?_perm perm]

/-! ## What sweeps do -/

theorem Leaves.refl (heap : Heap σ) : Leaves heap heap [] := by
  refine ⟨.nil, fun value => ?_⟩
  simp [cellWithout?]

theorem Leaves.of_cell? (leaves : Leaves heap heap' gone)
    (same : ∀ value, heap''.cell? value = heap'.cell? value) : Leaves heap heap'' gone :=
  ⟨leaves.unravels, fun value => (same value).trans (leaves.cells value)⟩

theorem cell?_releaseAll (heap : Heap σ) (values : List Value) (value : Value) :
    (heap.releaseAll values).cell? value =
      (heap.cell? value).map fun cell =>
        { cell with refs := cell.refs - values.count value } := by
  induction values generalizing heap with
  | nil => simp [releaseAll]
  | cons first rest inductionHypothesis =>
      show ((heap.release first).releaseAll rest).cell? value = _
      rw [inductionHypothesis, release, cell?_modifyCell]
      by_cases same : value = first
      · subst same
        rw [if_pos rfl, Option.map_map, List.count_cons_self, Nat.add_comm]
        simp only [Function.comp_def, Nat.sub_sub]
      · rw [if_neg same, List.count_cons_of_ne (Ne.symm same)]

/-- The cell that a visit reclaims comes last in the order. -/
theorem Leaves.reclaim (leaves : Leaves heap heap' gone) {index : Nat} {cell : Cell σ}
    (occupied : heap'.occupant? index = some cell) (unheld : cell.refs = 0) :
    Leaves heap ((heap'.vacate index).releaseAll cell.payload.children)
      (gone ++ [heap'.occupantHandle index]) := by
  have found := leaves.cells (heap'.occupantHandle index)
  rw [cell?_occupantHandle, occupied, cellWithout?] at found
  split at found
  next => contradiction
  next remains =>
    obtain ⟨before, foundBefore, rfl⟩ := Option.map_eq_some_iff.mp found.symm
    have children : heap.children (heap'.occupantHandle index) = before.payload.children := by
      rw [Heap.children, payload_of_cell? foundBefore]
    refine ⟨.snoc leaves.unravels remains ?_ ?_, fun value => ?_⟩
    · exact mem_cellHandles_iff.mpr
        ⟨isScratch_occupantHandle index, isLive_of_cell? foundBefore⟩
    · rw [refs, foundBefore]
      exact Nat.le_of_sub_eq_zero unheld
    · rw [cell?_releaseAll, cell?_vacate, leaves.cells, cellWithout?_append_singleton, children]
      split <;> rfl

theorem Leaves.visit (leaves : Leaves heap heap' gone) (progress : Progress) :
    ∃ gone', Leaves heap (Heap.visit progress heap').2 gone' := by
  rcases visit_cases progress heap' with ⟨passed, -⟩ | ⟨cell, occupied, unheld, reclaimed⟩
  · rw [passed]
    exact ⟨gone, leaves.of_cell? (cell?_withCursor heap' _)⟩
  · rw [reclaimed]
    exact ⟨_, (leaves.reclaim occupied unheld).of_cell? (cell?_withCursor _ _)⟩

theorem Leaves.sweepBy (leaves : Leaves heap heap' gone) (plan : SweepPlan) :
    ∃ gone', Leaves heap (heap'.sweepBy plan) gone' := by
  have tuned : SameCells heap'
      { (heap'.setSweepBatch plan.sweepBatch).setLowWater plan.lowWater with
        cursor := plan.cursor } := ⟨rfl, rfl, rfl, rfl, rfl⟩
  apply sweep_induction fun current => ∃ gone', Leaves heap current gone'
  · rintro progress current ⟨before, leavesBefore⟩
    exact leavesBefore.visit progress
  · rintro current ⟨after, leavesAfter⟩
    exact ⟨after, leavesAfter.of_cell? (SameCells.counters current _ _).cell?⟩
  · exact ⟨gone, leaves.of_cell? tuned.cell?⟩

/-- A series of sweeps reclaims cells in an order that is possible. -/
theorem exists_leaves_sweepAll (heap : Heap σ) (plans : List SweepPlan) :
    ∃ gone, Leaves heap (heap.sweepAll plans) gone := by
  suffices all : ∀ heap' gone, Leaves heap heap' gone →
      ∃ gone', Leaves heap (heap'.sweepAll plans) gone' from all heap [] (.refl heap)
  induction plans with
  | nil => exact fun heap' gone leaves => ⟨gone, leaves⟩
  | cons plan rest inductionHypothesis =>
      intro heap' gone leaves
      obtain ⟨between, leavesBetween⟩ := leaves.sweepBy plan
      exact inductionHypothesis _ _ leavesBetween

theorem Leaves.isLive (leaves : Leaves heap heap' gone) {value : Value}
    (live : heap'.isLive value = true) : heap.isLive value = true := by
  rw [Heap.isLive, leaves.cells, cellWithout?] at live
  split at live
  next => contradiction
  next => rwa [Option.isSome_map] at live

/-- The plan of a full sweep that begins where the last one ended. -/
def fullPlan (heap : Heap σ) : SweepPlan :=
  ⟨heap.config.sweepBatch, heap.config.lowWater, heap.cursor, .full⟩

/-- Where something is left to reclaim, a full sweep leaves fewer cells. -/
theorem length_cellHandles_sweepBy_full {value : Value} (member : value ∈ heap.cellHandles)
    (unheld : heap.refs value = 0) :
    (heap.sweepBy heap.fullPlan).cellHandles.length < heap.cellHandles.length := by
  obtain ⟨durable, isLive⟩ := mem_cellHandles_iff.mp member
  obtain ⟨gone, leaves⟩ := (Leaves.refl heap).sweepBy heap.fullPlan
  have stale : (heap.sweepBy heap.fullPlan).isLive value = false := by
    cases value with
    | null => contradiction
    | scratch id => contradiction
    | cell id => exact not_isLive_sweep_full unheld
  have others : (heap.sweepBy heap.fullPlan).cellHandles ⊆ heap.cellHandles.erase value := by
    intro other stays
    obtain ⟨otherDurable, otherLive⟩ := mem_cellHandles_iff.mp stays
    apply (List.mem_erase_of_ne _).mpr
      (mem_cellHandles_iff.mpr ⟨otherDurable, leaves.isLive otherLive⟩)
    rintro rfl
    rw [stale] at otherLive
    contradiction
  have fewer := (cellHandles_nodup.subperm others).length_le
  rw [List.length_erase_of_mem member] at fewer
  have positive := List.length_pos_of_mem member
  omega

/-- Every heap can be swept until nothing is left to reclaim. -/
theorem exists_sweptOut_sweepAll (heap : Heap σ) : ∃ plans, (heap.sweepAll plans).SweptOut := by
  induction size : heap.cellHandles.length using Nat.strongRecOn generalizing heap with
  | ind size inductionHypothesis =>
      by_cases sweptOut : heap.SweptOut
      · exact ⟨[], sweptOut⟩
      · simp only [SweptOut, not_forall, not_not] at sweptOut
        obtain ⟨value, member, unheld⟩ := sweptOut
        obtain ⟨plans, done⟩ := inductionHypothesis _
          (size ▸ length_cellHandles_sweepBy_full member unheld) _ rfl
        exact ⟨heap.fullPlan :: plans, done⟩

/-- Any two series of sweeps that leave nothing to reclaim leave the same handles live, with the
same payloads and the same counts. -/
theorem cell?_sweepAll_eq_of_sweptOut (heap : Heap σ) (plans plans' : List SweepPlan)
    (sweptOut : (heap.sweepAll plans).SweptOut) (sweptOut' : (heap.sweepAll plans').SweptOut)
    (value : Value) :
    (heap.sweepAll plans).cell? value = (heap.sweepAll plans').cell? value := by
  obtain ⟨gone, leaves⟩ := heap.exists_leaves_sweepAll plans
  obtain ⟨gone', leaves'⟩ := heap.exists_leaves_sweepAll plans'
  exact leaves.cell?_eq_of_sweptOut leaves' sweptOut sweptOut' value

/-! ## A heap with a cycle and a wrong count -/

/-- A string in an array that is in two other arrays, and in an array that holds itself. -/
def tangledScript : List (Event .bare) :=
  [.request (.string "a"), .request (.arrayOf [.cell ⟨0, 0⟩]),
    .request (.arrayOf [.cell ⟨1, 0⟩, .cell ⟨0, 0⟩]), .request (.arrayOf [.cell ⟨0, 0⟩]),
    .request (.pushItem (.cell ⟨3, 0⟩) (.cell ⟨3, 0⟩)), .request (.string "b"),
    .request (.arrayOf [.cell ⟨1, 0⟩])]

theorem isSome_tangled : (Session.run? (fun _ event => event.isPlain = true) (.start {})
    tangledScript).isSome = true := by
  decide +kernel

/-- The heap that the script leaves, with a count too many for the second string. -/
def tangled : Heap .bare :=
  ((Session.run? _ _ tangledScript).get isSome_tangled).heap.retain (.cell ⟨4, 0⟩)

/-- Three full sweeps. -/
def thoroughPlans : List SweepPlan :=
  List.replicate 3 ⟨1024, 256, 0, .full⟩

/-- Three small sweeps from other slots, of which the second stops at the low-water mark. -/
def hesitantPlans : List SweepPlan :=
  [⟨1, 0, 5, .standard⟩, ⟨1, 4, 1, .batch 3⟩, ⟨1, 0, 9, .batch 2⟩]

/-- Both series reclaim the three arrays that nobody holds, in different orders.  Neither reclaims
what the cycle or the wrong count keeps. -/
theorem tangled_heap_is_swept_alike :
    (tangled.sweepAll thoroughPlans).SweptOut ∧ (tangled.sweepAll hesitantPlans).SweptOut ∧
      (∀ value, (tangled.sweepAll thoroughPlans).cell? value =
        (tangled.sweepAll hesitantPlans).cell? value) ∧
      (tangled.sweepAll thoroughPlans).cellHandles =
        [.cell ⟨0, 0⟩, .cell ⟨3, 0⟩, .cell ⟨4, 0⟩] ∧
      (tangled.sweepAll thoroughPlans).free ≠ (tangled.sweepAll hesitantPlans).free := by
  have sweptOut : (tangled.sweepAll thoroughPlans).SweptOut := by decide +kernel
  have sweptOut' : (tangled.sweepAll hesitantPlans).SweptOut := by decide +kernel
  exact ⟨sweptOut, sweptOut', cell?_sweepAll_eq_of_sweptOut tangled _ _ sweptOut sweptOut',
    by decide +kernel, by decide +kernel⟩

end Heap

end CountedHeap
