import CountedHeap.Proofs.SweepBudgets

/-!
Contract: bounded sweeps with nothing in between are one sweep.

A sweep counts its visits afresh, so one that follows another might come to a slot twice, pass one
over, or stop at another place than a longer sweep.  Within one round it does not: the longer sweep
first does what the shorter one does, and goes on as the following one does from there.

Owns:
- what progress a sweep starts with, and how many cells were created before it, do not matter;
- visits that are left over when a sweep is done change nothing;
- two batches do what one batch of both sizes does, and so do any number of batches.

Does not own: batches that together exceed the live count, which take more than a round.
-/

namespace CountedHeap

/-- What two parts of a sweep have done together. -/
instance : Add Progress :=
  ⟨fun first second => ⟨first.examined + second.examined, first.freed + second.freed⟩⟩

/-- The progress of a sweep that has ended. -/
def SweepStats.progress (stats : SweepStats) : Progress :=
  ⟨stats.examined, stats.freed⟩

/-- How large the batches are together. -/
def batchTotal : List Nat → Nat
  | [] => 0
  | count :: counts => count + batchTotal counts

namespace Heap

variable {σ : Signature} {heap : Heap σ} {limit? floor? : Option Nat} {progress : Progress}

/-- Sweeps in batches, one after the other: what they examine, what they do, and what they
leave. -/
def sweepBatches (heap : Heap σ) : List Nat → List Examination × Progress × Heap σ
  | [] => ([], {}, heap)
  | count :: counts =>
      let (stats, next) := heap.sweep (.batch count)
      let (log, progress, last) := next.sweepBatches counts
      (heap.sweepLog (.batch count) ++ log, stats.progress + progress, last)

theorem sweepBatches_cons (heap : Heap σ) (count : Nat) (counts : List Nat) :
    heap.sweepBatches (count :: counts) =
      (heap.sweepLog (.batch count) ++
          ((heap.sweep (.batch count)).2.sweepBatches counts).1,
        (heap.sweep (.batch count)).1.progress +
          ((heap.sweep (.batch count)).2.sweepBatches counts).2.1,
        ((heap.sweep (.batch count)).2.sweepBatches counts).2.2) := rfl

theorem sweepBatches_singleton (heap : Heap σ) (count : Nat) :
    heap.sweepBatches [count] =
      (heap.sweepLog (.batch count), (heap.sweep (.batch count)).1.progress,
        (heap.sweep (.batch count)).2) := by
  rw [sweepBatches_cons, sweepBatches, List.append_nil]
  rfl

/-! ## Starting afresh -/

/-- A stage of a sweep that has done something before, and before which other cells were
created. -/
def resumed (spent : Progress) (allocated : Nat) (stage : Progress × Heap σ) :
    Progress × Heap σ :=
  (spent + stage.1, { stage.2 with allocated })

variable (spent : Progress) (allocated : Nat) (stage : Progress × Heap σ)

theorem releaseAll_withAllocated (heap : Heap σ) (values : List Value) :
    { heap with allocated }.releaseAll values = { heap.releaseAll values with allocated } := by
  induction values generalizing heap with
  | nil => rfl
  | cons value rest inductionHypothesis =>
      refine Eq.trans ?_ (inductionHypothesis (heap.release value))
      cases value <;> rfl

theorem reclaim_withAllocated (heap : Heap σ) (index : Nat) :
    { heap with allocated }.reclaim index = { heap.reclaim index with allocated } := by
  have occupant : { heap with allocated }.occupant? index = heap.occupant? index := rfl
  rw [reclaim, reclaim, occupant]
  cases heap.occupant? index with
  | none => rfl
  | some cell => exact releaseAll_withAllocated allocated (heap.vacate index) _

/-- A visit does what it does, whatever was done before. -/
theorem visit_resumed :
    visit (resumed spent allocated stage).1 (resumed spent allocated stage).2 =
      resumed spent allocated (visit stage.1 stage.2) := by
  obtain ⟨progress, heap⟩ := stage
  have place : { heap with allocated }.nextVisit = heap.nextVisit := rfl
  have occupant : { heap with allocated }.occupant? heap.nextVisit =
      heap.occupant? heap.nextVisit := rfl
  unfold visit resumed
  simp only [place, occupant, reclaim_withAllocated]
  cases heap.occupant? heap.nextVisit with
  | none => rfl
  | some cell =>
      simp only
      split <;> rfl

theorem sweepDone_resumed (limit : Nat) :
    sweepDone (some (spent.examined + limit)) floor? (resumed spent allocated stage).1
        (resumed spent allocated stage).2 =
      sweepDone (some limit) floor? stage.1 stage.2 := by
  have shifted : spent.examined + limit ≤ (resumed spent allocated stage).1.examined ↔
      limit ≤ stage.1.examined := Nat.add_le_add_iff_left
  simp only [sweepDone, Option.any_some, shifted]
  rfl

/-- A sweep that has spent some of its budget goes on as a sweep with the rest of it. -/
theorem sweepVisits_resumed (limit visits : Nat) :
    sweepVisits (some (spent.examined + limit)) floor? visits (resumed spent allocated stage).1
          (resumed spent allocated stage).2 =
        resumed spent allocated (sweepVisits (some limit) floor? visits stage.1 stage.2) ∧
      logVisits (some (spent.examined + limit)) floor? visits (resumed spent allocated stage).1
          (resumed spent allocated stage).2 =
        logVisits (some limit) floor? visits stage.1 stage.2 := by
  induction visits generalizing stage with
  | zero => exact ⟨rfl, rfl⟩
  | succ visits inductionHypothesis =>
      by_cases done : sweepDone (some limit) floor? stage.1 stage.2 = true
      · have doneToo := (sweepDone_resumed spent allocated stage limit).trans done
        rw [sweepVisits_of_done _ done, logVisits_of_done _ done,
          sweepVisits_of_done _ doneToo, logVisits_of_done _ doneToo]
        exact ⟨rfl, rfl⟩
      · have going := sweepDone_resumed spent allocated stage limit ▸ done
        obtain ⟨same, sameLog⟩ := inductionHypothesis (visit stage.1 stage.2)
        rw [sweepVisits_succ _ done, logVisits_succ _ done, sweepVisits_succ _ going,
          logVisits_succ _ going, visit_resumed, same, sameLog]
        exact ⟨rfl, rfl⟩

/-! ## Going on -/

/-- Visits that are left over change nothing. -/
theorem sweepVisits_of_endsWithin {visits more : Nat} (enough : visits ≤ more)
    (ends : endsWithin limit? floor? visits progress heap = true) :
    sweepVisits limit? floor? more progress heap =
        sweepVisits limit? floor? visits progress heap ∧
      logVisits limit? floor? more progress heap =
        logVisits limit? floor? visits progress heap := by
  induction visits generalizing more progress heap with
  | zero => exact ⟨sweepVisits_of_done more ends, logVisits_of_done more ends⟩
  | succ visits inductionHypothesis =>
      by_cases done : sweepDone limit? floor? progress heap = true
      · rw [sweepVisits_of_done _ done, sweepVisits_of_done _ done, logVisits_of_done _ done,
          logVisits_of_done _ done]
        exact ⟨rfl, rfl⟩
      · obtain ⟨more, rfl⟩ := Nat.exists_eq_add_of_le' (Nat.zero_lt_of_lt enough)
        obtain ⟨same, sameLog⟩ := inductionHypothesis (Nat.le_of_succ_le_succ enough)
          (endsWithin_succ visits done ▸ ends)
        rw [sweepVisits_succ _ done, sweepVisits_succ _ done, logVisits_succ _ done,
          logVisits_succ _ done, same, sameLog]
        exact ⟨rfl, rfl⟩

/-- A sweep with a larger budget first does what one with a smaller budget does. -/
theorem exists_sweepVisits_rest {limit larger : Nat} (le : limit ≤ larger) (visits : Nat)
    {between : Progress × Heap σ}
    (ran : sweepVisits (some limit) floor? visits progress heap = between) :
    ∃ rest ≤ visits,
      sweepVisits (some larger) floor? visits progress heap =
          sweepVisits (some larger) floor? rest between.1 between.2 ∧
        logVisits (some larger) floor? visits progress heap =
          logVisits (some limit) floor? visits progress heap ++
            logVisits (some larger) floor? rest between.1 between.2 := by
  induction visits generalizing progress heap with
  | zero => exact ⟨0, Nat.le_refl _, ran ▸ rfl, rfl⟩
  | succ visits inductionHypothesis =>
      by_cases done : sweepDone (some limit) floor? progress heap = true
      · obtain rfl := (sweepVisits_of_done _ done).symm.trans ran
        exact ⟨visits + 1, Nat.le_refl _, rfl, by rw [logVisits_of_done _ done]; rfl⟩
      · have going : ¬sweepDone (some larger) floor? progress heap = true := by
          intro ended
          apply done
          rw [sweepDone_iff] at ended ⊢
          refine ended.imp_left ?_
          rintro ⟨bound, isBound, reached⟩
          obtain rfl := Option.some.inj isBound
          exact ⟨limit, rfl, le.trans reached⟩
        obtain ⟨rest, fewer, same, sameLog⟩ :=
          inductionHypothesis ((sweepVisits_succ _ done).symm.trans ran)
        refine ⟨rest, Nat.le_succ_of_le fewer, ?_, ?_⟩
        · rw [sweepVisits_succ _ going, same]
        · rw [logVisits_succ _ going, logVisits_succ _ done, sameLog, List.append_assoc]

/-- A sweep that may examine no more cells than are live comes to an end within a round. -/
theorem SlabOrdered.endsWithin_round (ordered : heap.SlabOrdered) {limit : Nat}
    (enough : limit ≤ heap.live) (floor? : Option Nat) :
    endsWithin (some limit) floor? heap.slots.size {} heap = true := by
  rcases endsWithin_or_logVisits_perm (some limit) floor? {} heap with ends | everyCell
  · exact ends
  · have accounts := ordered.accounts (some limit) floor? {} (Nat.le_refl _)
    have examined := accounts.examined.trans (Nat.zero_add _)
    have all := everyCell.length_eq
    rw [List.length_map, ← ordered.live_eq_length] at all
    refine sweepDone_iff.mpr (.inl ⟨limit, rfl, ?_⟩)
    rw [examined, all]
    exact enough

/-- The heap that a sweep leaves if it ends at this stage. -/
def leaves (stage : Progress × Heap σ) : Heap σ :=
  { stage.2 with allocated := 0 }

/-- A sweep goes on as a sweep does that begins where a shorter one stopped. -/
theorem SlabOrdered.sweepVisits_add (ordered : heap.SlabOrdered) {first second : Nat}
    (enough : first + second ≤ heap.live) {between : Progress × Heap σ}
    (ran : sweepVisits (some first) floor? heap.slots.size {} heap = between) :
    sweepVisits (some (first + second)) floor? heap.slots.size {} heap =
        resumed between.1 between.2.allocated
          (sweepVisits (some second) floor? heap.slots.size {} (leaves between)) ∧
      logVisits (some (first + second)) floor? heap.slots.size {} heap =
        logVisits (some first) floor? heap.slots.size {} heap ++
          logVisits (some second) floor? heap.slots.size {} (leaves between) := by
  obtain ⟨rest, fewer, same, sameLog⟩ :=
    exists_sweepVisits_rest (Nat.le_add_right first second) _ ran
  have ends := ordered.endsWithin_round (Nat.le_of_add_right_le enough) floor?
  have endsLarger := ordered.endsWithin_round enough floor?
  rw [endsWithin, ran] at ends
  rw [endsWithin, same] at endsLarger
  rw [same, sameLog]
  obtain ⟨bound, isBound, reached⟩ | ⟨floor, isFloor, low⟩ := sweepDone_iff.mp ends
  · -- the budget of the shorter sweep is used up, and no more than that
    obtain rfl := Option.some.inj isBound
    have spent : between.1.examined ≤ first :=
      ran ▸ examined_sweepVisits_le floor? _ (Nat.zero_le _)
    obtain rfl := Nat.le_antisymm spent reached
    obtain ⟨goesOn, goesOnLog⟩ :
        sweepVisits (some (between.1.examined + second)) floor? rest between.1 between.2 =
            resumed between.1 between.2.allocated
              (sweepVisits (some second) floor? rest {} (leaves between)) ∧
          logVisits (some (between.1.examined + second)) floor? rest between.1 between.2 =
            logVisits (some second) floor? rest {} (leaves between) :=
      sweepVisits_resumed between.1 between.2.allocated ({}, leaves between) second rest
    rw [goesOn, sweepDone_resumed] at endsLarger
    obtain ⟨afresh, afreshLog⟩ := sweepVisits_of_endsWithin fewer endsLarger
    rw [goesOn, goesOnLog, afresh, afreshLog]
    exact ⟨rfl, rfl⟩
  · -- the floor is reached, and every sweep stops here
    have stops : ∀ limit? progress, sweepDone limit? floor? progress between.2 = true :=
      fun _ _ => sweepDone_iff.mpr (.inr ⟨floor, isFloor, low⟩)
    have stopsAgain : sweepDone (some second) floor? {} (leaves between) = true := stops _ _
    rw [sweepVisits_of_done _ (stops _ _), sweepVisits_of_done _ stopsAgain,
      logVisits_of_done _ (stops _ _), logVisits_of_done _ stopsAgain]
    exact ⟨rfl, rfl⟩

/-! ## Batches -/

theorem config_visit (progress : Progress) (heap : Heap σ) :
    (visit progress heap).2.config = heap.config := by
  rcases visit_effect progress heap with
    ⟨-, visited⟩ | ⟨_, -, -, -, visited⟩ | ⟨cell, -, -, visited⟩
  · rw [visited]
  · rw [visited]
  · obtain ⟨slots, scratch, released⟩ :=
      exists_releaseAll_eq (heap.vacate heap.nextVisit) cell.payload.children
    rw [visited, released]
    rfl

theorem config_sweep (heap : Heap σ) (budget : Budget) :
    (heap.sweep budget).2.config = heap.config :=
  sweep_induction (fun current => current.config = heap.config)
    (fun progress current same => (config_visit progress current).trans same)
    (fun _ same => same) budget rfl

theorem size_sweep (heap : Heap σ) (budget : Budget) :
    (heap.sweep budget).2.slots.size = heap.slots.size :=
  sweep_induction (fun current => current.slots.size = heap.slots.size)
    (fun progress current same => (size_visit progress current).trans same)
    (fun _ same => same) budget rfl

/-- What two batches do in turn, one batch of both sizes does. -/
structure Composes (heap : Heap σ) (first second : Nat) : Prop where
  heap_eq : ((heap.sweep (.batch first)).2.sweep (.batch second)).2 =
    (heap.sweep (.batch (first + second))).2
  examined_add : (heap.sweep (.batch first)).1.examined +
      ((heap.sweep (.batch first)).2.sweep (.batch second)).1.examined =
    (heap.sweep (.batch (first + second))).1.examined
  freed_add : (heap.sweep (.batch first)).1.freed +
      ((heap.sweep (.batch first)).2.sweep (.batch second)).1.freed =
    (heap.sweep (.batch (first + second))).1.freed
  /-- The same cells are examined in the same order, and with the same counts. -/
  log_append : heap.sweepLog (.batch first) ++
      (heap.sweep (.batch first)).2.sweepLog (.batch second) =
    heap.sweepLog (.batch (first + second))

/-- What a sweep in a batch is made of. -/
theorem sweep_batch (heap : Heap σ) (count : Nat) {last : Progress × Heap σ}
    (ran : sweepVisits (some count) (some heap.config.lowWater) heap.slots.size {} heap = last) :
    heap.sweep (.batch count) =
      (⟨last.1.examined, last.1.freed, last.2.live⟩, leaves last) := by
  subst ran
  rfl

theorem SlabOrdered.composes (ordered : heap.SlabOrdered) {first second : Nat}
    (enough : first + second ≤ heap.live) : Composes heap first second := by
  generalize ran : sweepVisits (some first) (some heap.config.lowWater) heap.slots.size {} heap =
    between
  obtain ⟨whole, wholeLog⟩ := ordered.sweepVisits_add enough ran
  have former := sweep_batch heap first ran
  have config : (leaves between).config = heap.config :=
    (congrArg (·.2.config) former).symm.trans (config_sweep heap _)
  have size : (leaves between).slots.size = heap.slots.size :=
    (congrArg (·.2.slots.size) former).symm.trans (size_sweep heap _)
  generalize goesOn : sweepVisits (some second) (some heap.config.lowWater) heap.slots.size {}
    (leaves between) = last at whole
  have latter := sweep_batch (leaves between) second (by rw [config, size, goesOn])
  have both := sweep_batch heap (first + second) whole
  refine ⟨?_, ?_, ?_, ?_⟩
  · rw [former, latter, both]
    rfl
  · rw [former, latter, both]
    rfl
  · rw [former, latter, both]
    rfl
  · refine Eq.trans ?_ wholeLog.symm
    refine congrArg (sweepLog heap (.batch first) ++ ·) ?_
    rw [former]
    show logVisits (some second) (some (leaves between).config.lowWater)
      (leaves between).slots.size {} (leaves between) = _
    rw [config, size]

theorem Composes.sweepBatches_eq {first second : Nat} (composes : Composes heap first second) :
    heap.sweepBatches [first, second] = heap.sweepBatches [first + second] := by
  have progress : (heap.sweep (.batch first)).1.progress +
      ((heap.sweep (.batch first)).2.sweep (.batch second)).1.progress =
        (heap.sweep (.batch (first + second))).1.progress :=
    Progress.mk.injEq .. ▸ ⟨composes.examined_add, composes.freed_add⟩
  rw [sweepBatches_cons heap first, sweepBatches_singleton, sweepBatches_singleton, progress,
    composes.log_append, composes.heap_eq]

/-- A batch takes no more cells away than its size. -/
theorem SlabOrdered.live_le_add_live_sweep (ordered : heap.SlabOrdered) (count : Nat) :
    heap.live ≤ count + (heap.sweep (.batch count)).2.live := by
  have accounts := ordered.accounts (some count) (some heap.config.lowWater) {} (Nat.le_refl _)
  have examined := accounts.examined.trans (Nat.zero_add _)
  have limited : (sweepVisits (some count) (some heap.config.lowWater) heap.slots.size {}
      heap).1.examined ≤ count := examined_sweepVisits_le _ _ (Nat.zero_le count)
  have few := examined ▸ limited
  have reclaimed := (List.countP_le_length (p := Examination.unheld)).trans few
  refine accounts.live.ge.trans ?_
  rw [Nat.add_comm]
  exact Nat.add_le_add_right reclaimed _

theorem SlabOrdered.withAllocated (ordered : heap.SlabOrdered) (allocated : Nat) :
    { heap with allocated }.SlabOrdered :=
  ⟨ordered.live_eq, ordered.free_nodup, ordered.mem_free, ordered.cursor_le⟩

theorem SlabOrdered.sweep (ordered : heap.SlabOrdered) (budget : Budget) :
    (heap.sweep budget).2.SlabOrdered :=
  (ordered.accounts _ _ {} (Nat.le_refl _)).ordered.withAllocated 0

/-- Bounded sweeps with nothing in between do what one sweep with all their budgets does, as long
as these do not exceed the live count. -/
theorem SlabOrdered.batches_compose (ordered : heap.SlabOrdered) :
    (∀ first second, first + second ≤ heap.live → Composes heap first second) ∧
      ∀ count counts, batchTotal (count :: counts) ≤ heap.live →
        heap.sweepBatches (count :: counts) =
          heap.sweepBatches [batchTotal (count :: counts)] := by
  refine ⟨fun _ _ => ordered.composes, fun count counts enough => ?_⟩
  induction counts generalizing count heap with
  | nil => rfl
  | cons second rest inductionHypothesis =>
      have next := ordered.sweep (.batch count)
      have left := ordered.live_le_add_live_sweep count
      have later := inductionHypothesis next second (by
        rw [batchTotal] at enough
        omega)
      calc heap.sweepBatches (count :: second :: rest)
          = heap.sweepBatches [count, batchTotal (second :: rest)] := by
            rw [sweepBatches_cons heap count, sweepBatches_cons heap count, later]
        _ = heap.sweepBatches [count + batchTotal (second :: rest)] :=
            (ordered.composes enough).sweepBatches_eq

/-- The second batch begins again at the first slot and stops at the floor. -/
theorem scattered_in_batches :
    scattered.SlabOrdered ∧ scattered.live = 4 ∧ scattered.cursor = 3 ∧
      Composes scattered 2 2 ∧
      (scattered.sweep (.batch 2)).1 = ⟨2, 1, 3⟩ ∧
      ((scattered.sweep (.batch 2)).2.sweep (.batch 2)).1 = ⟨1, 1, 2⟩ ∧
      ((scattered.sweep (.batch 2)).2.sweep (.batch 2)).2.free = [0, 4, 2] ∧
      (scattered.sweep (.batch 4)).1 = ⟨3, 2, 2⟩ ∧ (scattered.sweep (.batch 4)).2.cursor = 1 ∧
      scattered.sweepBatches [1, 0, 2, 1] = scattered.sweepBatches [4] := by
  have ordered := runs_scattered.slabOrdered
  obtain ⟨pairs, lists⟩ := ordered.batches_compose
  exact ⟨ordered, by decide +kernel, by decide +kernel, pairs 2 2 (by decide +kernel),
    by decide +kernel, by decide +kernel, by decide +kernel, by decide +kernel,
    by decide +kernel, lists 1 [0, 2, 1] (by decide +kernel)⟩

end Heap

end CountedHeap
