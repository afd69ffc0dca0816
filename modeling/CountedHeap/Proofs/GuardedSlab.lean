import CountedHeap.Proofs.Guarded
import CountedHeap.Proofs.Slab

/-!
Contract: making, releasing and giving up cells, spelled by guarded steps.

A free slot is looked up by its number, a count that is not zero goes down by one, and a visit of a
sweep looks at a slot.  Where the books of the slab are in order, all of them are there.

Owns:
- the operations on the slab and on the pool by guarded steps;
- they do not misstep where the books of the slab are in order.
-/

namespace CountedHeap

namespace Guarded

variable {m : Type → Type} [Monad m] {σ : Signature}

/-! ## Cells -/

/-- Make a long-lived cell. -/
def create (heap : Heap σ) (payload : Payload σ) : Guarded m (Value × Heap σ) :=
  match heap.free with
  | index :: free => do
      let slot ← element heap.slots.toList index
      let slots ← store heap.slots.toList index { slot with cell := some { payload } }
      return (.cell ⟨index, slot.generation⟩,
        { heap with
          slots := slots.toArray
          free
          live := heap.live + 1
          allocated := heap.allocated + 1 })
  | [] => return heap.create payload

/-- One holder less of a value. -/
def release (heap : Heap σ) (value : Value) : Guarded m (Heap σ) :=
  match heap.cell? value with
  | none => return heap
  | some cell =>
      if cell.refs = 0 then return heap
      else do
        let refs ← minus cell.refs 1
        return heap.modifyCell value fun cell => { cell with refs }

/-- Release every value of a list. -/
def releaseAll (heap : Heap σ) (values : List Value) : Guarded m (Heap σ) :=
  values.foldlM release heap

/-- Empty a slot and answer its cell. -/
def freeSlot (heap : Heap σ) (index : Nat) : Guarded m (Option (Cell σ) × Heap σ) :=
  match heap.occupant? index with
  | none => return (none, heap)
  | some cell => do
      let live ← minus heap.live 1
      return (some cell, { heap.vacate index with live })

/-- Free an occupied slot and release what its cell owned. -/
def reclaim (heap : Heap σ) (index : Nat) : Guarded m (Heap σ) := do
  let (freed, heap) ← freeSlot heap index
  match freed with
  | none => return heap
  | some cell => releaseAll heap cell.payload.children

/-! ## Sweeps and scopes -/

/-- Visit one slot. -/
def visit (progress : Progress) (heap : Heap σ) : Guarded m (Progress × Heap σ) := do
  let index := heap.nextVisit
  let slot ← element heap.slots.toList index
  match slot.cell with
  | none => return (progress, { heap with cursor := index + 1 })
  | some cell =>
      if cell.refs = 0 then do
        let heap ← reclaim heap index
        return ({ examined := progress.examined + 1, freed := progress.freed + 1 },
          { heap with cursor := index + 1 })
      else return ({ progress with examined := progress.examined + 1 },
        { heap with cursor := index + 1 })

/-- Visit up to `visits` slots. -/
def sweepVisits (limit? floor? : Option Nat) :
    Nat → Progress → Heap σ → Guarded m (Progress × Heap σ)
  | 0, progress, heap => return (progress, heap)
  | visits + 1, progress, heap =>
      if Heap.sweepDone limit? floor? progress heap then return (progress, heap)
      else do
        let (progress, heap) ← visit progress heap
        sweepVisits limit? floor? visits progress heap

/-- Sweep within a budget. -/
def sweep (heap : Heap σ) (budget : Budget) : Guarded m (SweepStats × Heap σ) := do
  let (progress, heap) ←
    sweepVisits (budget.limit? heap.config) (budget.floor? heap.config) heap.slots.size {} heap
  return ({ examined := progress.examined, freed := progress.freed, live := heap.live },
    { heap with allocated := 0 })

/-- Drop the scratch cells above a mark, unless there are none. -/
def unwind (heap : Heap σ) (mark : Nat) : Guarded m (Heap σ) :=
  if heap.scratch.size ≤ mark then return heap
  else do
    let (dropped, kept) ← drain heap.scratch.toList mark heap.scratch.size
    releaseAll { heap with scratch := kept.toArray }
      (dropped.flatMap fun slot => slot.cell.payload.children)

/-! ## What they come to -/

section Laws

variable [LawfulMonad m] {heap : Heap σ}

theorem create_eq (ordered : heap.SlabOrdered) (payload : Payload σ) :
    create heap payload = (pure (heap.create payload) : Guarded m (Value × Heap σ)) := by
  unfold create
  cases listed : heap.free with
  | nil => rfl
  | cons index free =>
      have inside : index < heap.slots.size := ((ordered.mem_free index).mp (listed ▸ .head _)).1
      have slot := Array.getElem?_eq_getElem inside
      have modified : (heap.slots.toList.set index
          { heap.slots[index] with cell := some { payload } }).toArray =
            heap.slots.modify index fun slot => { slot with cell := some { payload } } := by
        apply Array.ext_getElem?
        intro other
        rw [List.getElem?_toArray, List.getElem?_set, Array.getElem?_modify,
          Array.getElem?_toList, Array.length_toList]
        split
        next here =>
          subst here
          rw [slot]
          rfl
        next => rfl
      dsimp only
      rw [element_eq (by rw [Array.getElem?_toList]; exact slot), pure_bind,
        store_eq (by rwa [Array.length_toList]), pure_bind, modified, Heap.create, listed]
      dsimp only
      rw [slot]

theorem release_eq (heap : Heap σ) (value : Value) :
    release heap value = (pure (heap.release value) : Guarded m (Heap σ)) := by
  unfold release Heap.release
  cases found : heap.cell? value with
  | none =>
      rw [Heap.modifyCell_of_same]
      intro cell foundCell
      rw [found] at foundCell
      contradiction
  | some cell =>
      have only : ∀ other, heap.cell? value = some other → other = cell :=
        fun other foundOther => Option.some.inj (foundOther.symm.trans found)
      dsimp only
      split
      next zero =>
        rw [Heap.modifyCell_of_same]
        intro other foundOther
        rw [only other foundOther, zero, Nat.zero_sub, ← zero]
      next counted =>
        rw [minus_eq (Nat.pos_of_ne_zero counted), pure_bind]
        congr 1
        apply Heap.modifyCell_congr
        intro other foundOther
        rw [only other foundOther]

theorem releaseAll_eq (heap : Heap σ) (values : List Value) :
    releaseAll heap values = (pure (heap.releaseAll values) : Guarded m (Heap σ)) := by
  have each : (release : Heap σ → Value → Guarded m (Heap σ)) =
      fun heap value => pure (heap.release value) :=
    funext fun heap => funext fun value => release_eq heap value
  rw [releaseAll, each, List.foldlM_pure]
  rfl

theorem reclaim_eq (ordered : heap.SlabOrdered) (index : Nat) :
    reclaim heap index = (pure (heap.reclaim index) : Guarded m (Heap σ)) := by
  unfold reclaim freeSlot Heap.reclaim
  cases found : heap.occupant? index with
  | none => rw [pure_bind]
  | some cell =>
      dsimp only
      rw [minus_eq (ordered.live_pos found), pure_bind, pure_bind]
      exact releaseAll_eq _ _

theorem visit_eq (ordered : heap.SlabOrdered) (nonempty : 0 < heap.slots.size)
    (progress : Progress) :
    visit progress heap = (pure (Heap.visit progress heap) : Guarded m (Progress × Heap σ)) := by
  have inside := Heap.nextVisit_lt nonempty
  have slot := Array.getElem?_eq_getElem inside
  have occupant : heap.occupant? heap.nextVisit = heap.slots[heap.nextVisit].cell := by
    rw [Heap.occupant?, slot]
    rfl
  unfold visit Heap.visit
  dsimp only
  rw [element_eq (by rw [Array.getElem?_toList]; exact slot), pure_bind, occupant]
  cases heap.slots[heap.nextVisit].cell with
  | none => rfl
  | some cell =>
      dsimp only
      split
      next => rw [reclaim_eq ordered, pure_bind]
      next => rfl

theorem sweepVisits_eq (consistent : heap.Consistent) (ordered : heap.SlabOrdered)
    (limit? floor? : Option Nat) {visits : Nat} (enough : visits ≤ heap.slots.size)
    (progress : Progress) :
    sweepVisits limit? floor? visits progress heap =
      (pure (Heap.sweepVisits limit? floor? visits progress heap) :
        Guarded m (Progress × Heap σ)) := by
  induction visits generalizing heap progress with
  | zero => rfl
  | succ visits inductionHypothesis =>
      have nonempty : 0 < heap.slots.size := Nat.lt_of_lt_of_le (Nat.succ_pos visits) enough
      rw [sweepVisits, Heap.sweepVisits]
      split
      next => rfl
      next =>
        have visiting : Heap.Leads True 0 heap (Heap.visit progress heap).2 :=
          .visit progress nonempty
        obtain ⟨-, consistentThere, orderedThere, -⟩ := visiting.ordered consistent ordered
        rw [visit_eq ordered nonempty, pure_bind]
        exact inductionHypothesis consistentThere orderedThere
          (by rw [Heap.size_visit]; omega) _

/-- Sweeping never missteps. -/
theorem sweep_eq (consistent : heap.Consistent) (ordered : heap.SlabOrdered) (budget : Budget) :
    sweep heap budget = (pure (heap.sweep budget) : Guarded m (SweepStats × Heap σ)) := by
  rw [sweep, sweepVisits_eq consistent ordered _ _ (Nat.le_refl _), pure_bind]
  rfl

/-- Unwinding never missteps, whatever the mark. -/
theorem unwind_eq (heap : Heap σ) (mark : Nat) :
    unwind heap mark = (pure (heap.unwind mark) : Guarded m (Heap σ)) := by
  unfold unwind Heap.unwind
  split
  next above =>
    have nothing : heap.scratch.toList.drop mark = [] :=
      List.drop_eq_nil_of_le (by rwa [Array.length_toList])
    have everything : heap.scratch.extract 0 mark = heap.scratch := by
      rw [Array.extract_eq_self_of_le above]
    rw [nothing, everything]
    rfl
  next below =>
    have size : heap.scratch.toList.length = heap.scratch.size := Array.length_toList
    have kept : (heap.scratch.toList.take mark).toArray = heap.scratch.extract 0 mark := by
      rw [← Array.toList_inj, Array.toList_extract]
      simp
    rw [drain, range_eq (by omega) (by omega), pure_bind, pure_bind]
    dsimp only
    rw [releaseAll_eq, ← size, List.take_length, List.drop_length, List.append_nil, kept]

end Laws

end Guarded

end CountedHeap
