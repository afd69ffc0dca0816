import CountedHeap.Proofs.Comparators

/-!
Contract: the counts of the items while a comparator runs.

The items are out of the sequence, and their counts stay.  They are the sort's to give back: to the
sequence if it is still there, and to nobody if a comparator let it be swept away, because the sort
does not hold the sequence itself.

Owns:
- an exact account of what every count is after a sort, whether it ends well or by a fault;
- a sort that loses the array it sorts, and keeps the counts of the elements.

Does not own: sorts of an array that is held, which are balanced like every other call.
-/

namespace CountedHeap

variable {σ : Signature} {heap heap' after : Heap σ} {held : Multiset Value}
  {items among : List Value} {sequence comparator : Value} {host : Host σ} {depth : Nat}
  {log : List Comparison} {outcome : Except Fault Unit}
  {transfers : Multiset Value → Multiset Value → Prop}

theorem Heap.target?_retainAll (heap : Heap σ) (values : List Value) (callable : Value) :
    (heap.retainAll values).target? callable = heap.target? callable := by
  simp only [Heap.target?, Heap.native?, Heap.payload_retainAll]

/-- What the comparator reaches keeps counts exact while the items count as held, and so do the
comparator and the two elements, which the call holds.  Meanwhile what is held elsewhere may pass
from one ledger to another. -/
def ComparatorKeepsCounts (host : Host σ) (depth : Nat) (comparator : Value) (items : List Value)
    (transfers : Multiset Value → Multiset Value → Prop) : Prop :=
  ∀ ⦃inside : Heap σ⦄ ⦃held : Multiset Value⦄ ⦃native : Native σ⦄ ⦃auxiliary left right : Value⦄,
    inside.target? comparator = some (native, auxiliary) →
      inside.Sound (held + ↑items + ↑[comparator, left, right]) →
        ∀ ⦃outcome : Except Fault Value⦄ ⦃after : Heap σ⦄,
          native.run host (exec host depth) auxiliary [left, right] inside =
              .ok (outcome, after) →
            ∃ held', transfers held held' ∧
              after.Sound (held' + ↑items + ↑[comparator, left, right])

/-- A host whose natives give back all that they take. -/
theorem Host.KeepsCounts.comparatorKeepsCounts (hosted : host.KeepsCounts) (depth : Nat)
    (comparator : Value) (items : List Value) :
    ComparatorKeepsCounts host depth comparator items Eq := by
  intro inside held native auxiliary left right found sound outcome after ran
  have held_ : ∀ value ∈ [comparator, left, right], inside.Issued value := fun value member =>
    sound.issued_held (Multiset.mem_add.mpr (.inr (Multiset.mem_coe.mpr member)))
  have arguments : (↑[left, right] : Multiset Value) ≤ held + ↑items + ↑[comparator, left, right] :=
    (Multiset.le_cons_self _ _).trans (Multiset.le_add_left _ _)
  have running := native.run_keepsCounts hosted (hosted.exec depth) auxiliary [left, right]
  refine ⟨held, rfl, (running sound arguments ?_ ran).1⟩
  exact List.forall_mem_cons.mpr ⟨Heap.issued_target sound found, fun value member =>
    held_ value (.tail _ member)⟩

/-- One call of such a comparator. -/
theorem ComparatorKeepsCounts.call (refl : ∀ held, transfers held held)
    (keeps : ComparatorKeepsCounts host depth comparator items transfers)
    (sound : heap.Sound (held + ↑items)) {left right : Value}
    (issued : ∀ value ∈ [comparator, left, right], heap.Issued value)
    {outcome : Except Fault Value}
    (done : exec host (depth + 1) comparator [left, right] heap = .ok (outcome, heap')) :
    ∃ held', transfers held held' ∧ heap'.Sound (held' + ↑items) ∧ heap'.Issued comparator := by
  rcases exec_eq_ok done with ⟨-, rfl⟩ | ⟨native, auxiliary, inner, found, same, ran⟩
  · exact ⟨held, refl held, sound, issued comparator (.head _)⟩
  · obtain rfl := Nat.succ.inj same
    obtain ⟨after, running, rfl⟩ := Action.holding_eq_ok.mp ran
    have target := (Heap.target?_retainAll heap [comparator, left, right] comparator).trans found
    obtain ⟨held', passed, soundAfter⟩ :=
      keeps target (Heap.Step.retainAll sound issued).sound running
    have leaving := Heap.Step.releaseAll soundAfter
    have issuedAfter : after.Issued comparator := soundAfter.issued_held
      (Multiset.mem_add.mpr (.inr (Multiset.mem_coe.mpr (.head _))))
    exact ⟨held', passed, leaving.sound, leaving.keeps.issued issuedAfter⟩

/-- The elements are among the items, which the ledger holds. -/
theorem issued_comparison (sound : heap.Sound (held + ↑items)) (issued : heap.Issued comparator)
    (listed : ∀ value ∈ among, value = .null ∨ value ∈ items) {left right : Value}
    (leftAmong : left ∈ among) (rightAmong : right ∈ among) :
    ∀ value ∈ [comparator, left, right], heap.Issued value := by
  have element : ∀ value ∈ among, heap.Issued value := by
    intro value member
    rcases listed value member with rfl | isItem
    · exact Heap.issued_null
    · exact sound.issued_held (Multiset.mem_add.mpr (.inr (Multiset.mem_coe.mpr isItem)))
  simpa using ⟨issued, element left leftAmong, element right rightAmong⟩

theorem Compared.counts (refl : ∀ held, transfers held held)
    (trans : ∀ first second third, transfers first second → transfers second third →
      transfers first third)
    (keeps : ComparatorKeepsCounts host depth comparator items transfers)
    (listed : ∀ value ∈ among, value = .null ∨ value ∈ items)
    (compared : Compared (exec host (depth + 1)) comparator among heap log heap')
    (sound : heap.Sound (held + ↑items)) (issued : heap.Issued comparator) :
    ∃ held', transfers held held' ∧ heap'.Sound (held' + ↑items) ∧ heap'.Issued comparator := by
  induction compared generalizing held with
  | nil => exact ⟨held, refl held, sound, issued⟩
  | cons leftAmong rightAmong called _ inductionHypothesis =>
      obtain ⟨between, passed, soundBetween, issuedBetween⟩ := keeps.call refl sound
        (issued_comparison sound issued listed leftAmong rightAmong) called
      obtain ⟨last, passedAgain, soundLast, issuedLast⟩ :=
        inductionHypothesis soundBetween issuedBetween
      exact ⟨last, trans _ _ _ passed passedAgain, soundLast, issuedLast⟩

theorem ComparisonsEnd.counts (refl : ∀ held, transfers held held)
    (trans : ∀ first second third, transfers first second → transfers second third →
      transfers first third)
    (keeps : ComparatorKeepsCounts host depth comparator items transfers)
    (listed : ∀ value ∈ among, value = .null ∨ value ∈ items)
    (ending : ComparisonsEnd (exec host (depth + 1)) comparator among heap log outcome after)
    (sound : heap.Sound (held + ↑items)) (issued : heap.Issued comparator) :
    ∃ held', transfers held held' ∧ after.Sound (held' + ↑items) := by
  cases ending with
  | answered compared =>
      obtain ⟨held', passed, soundAfter, -⟩ :=
        compared.counts refl trans keeps listed sound issued
      exact ⟨held', passed, soundAfter⟩
  | failed compared leftAmong rightAmong last =>
      obtain ⟨between, passed, soundBetween, issuedBetween⟩ :=
        compared.counts refl trans keeps listed sound issued
      obtain ⟨last, passedAgain, soundLast, -⟩ := keeps.call refl soundBetween
        (issued_comparison soundBetween issuedBetween listed leftAmong rightAmong) last
      exact ⟨last, trans _ _ _ passed passedAgain, soundLast⟩

/-- The counts after a sort by a comparator, whichever way it ends.  If the sequence is still there
they are exact.  If it is gone, every element has one count for each place that it had in the
sequence, and nobody accounts for these. -/
theorem sort_counts (refl : ∀ held, transfers held held)
    (trans : ∀ first second third, transfers first second → transfers second third →
      transfers first third)
    (sound : heap.Sound held) (found : heap.items? sequence = some items)
    (executable : heap.isExecutable comparator = true)
    (keeps : ComparatorKeepsCounts host depth comparator items transfers) {step : Nat}
    (done : sortItems (exec host (depth + 1)) sequence step (some comparator) heap =
      .ok (outcome, heap')) :
    ∃ held', transfers held held' ∧
      ((heap'.items? sequence).isSome = true → heap'.Sound held' ∧ heap'.Exact held') ∧
      (heap'.items? sequence = none →
        heap'.Sound (held' + ↑items) ∧ heap'.Exact (held' + ↑items)) := by
  obtain ⟨log, after, items', ending, rfl, failed, answered⟩ :=
    sortItems_stages found executable done
  have whole := Records.flatten_cutRecords (max step 1) (items.length / max step 1) items
  have listed : ∀ value ∈ (Records.cutRecords (max step 1) (items.length / max step 1)
      items).1.map leadOf, value = .null ∨ value ∈ items := by
    intro value member
    obtain ⟨record, inside, rfl⟩ := List.mem_map.mp member
    have element : ∀ item ∈ record, item = .null ∨ item ∈ items := by
      intro item isElement
      right
      rw [← whole]
      exact List.mem_append_left _ (List.mem_flatten.mpr ⟨record, inside, isElement⟩)
    exact @headD_of_forall (fun item => item = .null ∨ item ∈ items) (.inl rfl) record element
  have issued : heap.Issued comparator :=
    sound.toConsistent.issued (Heap.isLive_of_kind_ne (by
      intro absent
      rw [Heap.isExecutable, absent] at executable
      contradiction))
  have detaching := Heap.Step.detach sound found
  obtain ⟨held', passed, soundAfter⟩ := ending.counts refl trans keeps listed detaching.sound
    (detaching.keeps.issued issued)
  have perm : items'.Perm items := by
    cases outcome with
    | error fault => rw [failed fault rfl]
    | ok answer =>
        obtain ⟨sorted, perm, rfl, -⟩ := answered rfl
        exact (perm.flatten.append_right _).trans (.of_eq whole)
  refine ⟨held', passed, ?_⟩
  cases foundAfter : after.items? sequence with
  | some strays =>
      rw [Heap.items?_restoreItems foundAfter]
      rw [← Multiset.coe_eq_coe.mpr perm] at soundAfter
      have restored := (Heap.Step.restoreItems soundAfter foundAfter fun item isItem =>
        Heap.durable_items sound found (perm.subset isItem)).sound
      exact ⟨fun _ => ⟨restored, restored.exact⟩, fun gone => (Option.some_ne_none _ gone).elim⟩
  | none =>
      have unchanged : after.restoreItems sequence items' = after := by
        rw [Heap.restoreItems, foundAfter]
      rw [unchanged, foundAfter]
      exact ⟨fun stays => (Bool.false_ne_true stays).elim,
        fun _ => ⟨soundAfter, soundAfter.exact⟩⟩

/-! ## A comparator that sweeps -/

namespace Heap

/-- The plain callable sweeps the whole heap.  The closure calls its auxiliary value. -/
def sweeper : Host relaying where
  plain := fun _ _ _ => CoreNative.runSweep (-1)
  closure := fun _ call auxiliary arguments => call auxiliary arguments

theorem sweeper_keepsCounts : sweeper.KeepsCounts where
  plain := fun _ _ _ => CoreNative.runSweep_keepsCounts (-1)
  closure := fun keeps _ auxiliary arguments =>
    (keeps auxiliary arguments).mono (fun _ => id) (Multiset.zero_le _)

/-- An array of two numbers, and the native that sweeps. -/
def sweepingScript : List (Event relaying) :=
  [.request (.int 2), .request (.int 1), .request (.arrayOf [.cell ⟨0, 0⟩, .cell ⟨1, 0⟩]),
    .request (.native (.host ()))]

theorem isSome_sweeping :
    (Session.run? (fun _ event => event.isPlain = true) (.start {}) sweepingScript).isSome =
      true := by
  decide +kernel

/-- The heap in which nobody holds the array. -/
def unheldArray : Heap relaying :=
  ((Session.run? (fun _ event => event.isPlain = true) (.start {}) sweepingScript).get
    isSome_sweeping).heap

theorem sound_unheldArray : unheldArray.Sound 0 := by
  have reaches := Session.reaches_of_run? .refl (Option.some_get isSome_sweeping).symm
  have nothing : ((Session.run? _ (.start {}) sweepingScript).get isSome_sweeping).owners = 0 := by
    decide +kernel
  have sound := reaches.sound_owners
  rwa [nothing] at sound

/-- The same with one owner of the array. -/
def heldArray : Heap relaying :=
  unheldArray.retain (.cell ⟨2, 0⟩)

theorem sound_heldArray : heldArray.Sound {.cell ⟨2, 0⟩} :=
  (Step.retain sound_unheldArray (by decide +kernel)).sound

/-- With an owner of the array the counts are exact after the sort.  Without one, the two numbers
are counted once more than they are held. -/
theorem counts_after_sweeping_comparator :
    (∃ heap', sortItems (exec sweeper 1) (.cell ⟨2, 0⟩) 1 (some (.cell ⟨3, 0⟩)) heldArray =
        .ok (.ok (), heap') ∧ heap'.Exact {.cell ⟨2, 0⟩}) ∧
      ∃ heap', sortItems (exec sweeper 1) (.cell ⟨2, 0⟩) 1 (some (.cell ⟨3, 0⟩)) unheldArray =
        .ok (.ok (), heap') ∧ heap'.Exact ↑[(.cell ⟨0, 0⟩ : Value), .cell ⟨1, 0⟩] := by
  have eq_trans : ∀ first second third : Multiset Value,
      first = second → second = third → first = third := fun _ _ _ => Eq.trans
  have keeps : ComparatorKeepsCounts sweeper 0 (.cell ⟨3, 0⟩) [.cell ⟨0, 0⟩, .cell ⟨1, 0⟩] Eq :=
    sweeper_keepsCounts.comparatorKeepsCounts 0 _ _
  constructor
  · obtain ⟨heap', done, stays⟩ : ∃ heap', sortItems (exec sweeper 1) (.cell ⟨2, 0⟩) 1
        (some (.cell ⟨3, 0⟩)) heldArray = .ok (.ok (), heap') ∧
          (heap'.items? (.cell ⟨2, 0⟩)).isSome = true :=
      exists_of_checked (by decide +kernel)
    obtain ⟨held', rfl, balanced, -⟩ := sort_counts Eq.refl eq_trans sound_heldArray
      (by decide +kernel) (by decide +kernel) keeps done
    exact ⟨heap', done, (balanced stays).2⟩
  · obtain ⟨heap', done, gone⟩ : ∃ heap', sortItems (exec sweeper 1) (.cell ⟨2, 0⟩) 1
        (some (.cell ⟨3, 0⟩)) unheldArray = .ok (.ok (), heap') ∧
          (heap'.items? (.cell ⟨2, 0⟩)).isNone = true :=
      exists_of_checked (by decide +kernel)
    obtain ⟨held', rfl, -, lost⟩ := sort_counts Eq.refl eq_trans sound_unheldArray
      (by decide +kernel) (by decide +kernel) keeps done
    obtain ⟨-, exact_⟩ := lost (Option.isNone_iff_eq_none.mp gone)
    rw [zero_add] at exact_
    exact ⟨heap', done, exact_⟩

/-- Nobody holds the number that was first in the array, and it has one count. -/
theorem swept_array_loses_counts :
    unheldArray.Sound 0 ∧ sweeper.KeepsCounts ∧
      ∃ heap', sortItems (exec sweeper 1) (.cell ⟨2, 0⟩) 1 (some (.cell ⟨3, 0⟩)) unheldArray =
        .ok (.ok (), heap') ∧ heap'.isLive (.cell ⟨0, 0⟩) = true ∧
          heap'.refs (.cell ⟨0, 0⟩) = 1 ∧ heap'.references.count (.cell ⟨0, 0⟩) = 0 ∧
            ¬heap'.Exact 0 := by
  obtain ⟨heap', done, checked⟩ : ∃ heap', sortItems (exec sweeper 1) (.cell ⟨2, 0⟩) 1
      (some (.cell ⟨3, 0⟩)) unheldArray = .ok (.ok (), heap') ∧
        decide (heap'.isLive (.cell ⟨0, 0⟩) = true ∧ heap'.refs (.cell ⟨0, 0⟩) = 1 ∧
          heap'.references.count (.cell ⟨0, 0⟩) = 0) = true :=
    exists_of_checked (by decide +kernel)
  obtain ⟨live, counted, unreferenced⟩ := of_decide_eq_true checked
  refine ⟨sound_unheldArray, sweeper_keepsCounts, heap', done, live, counted, unreferenced,
    fun exact_ => ?_⟩
  have balance := exact_ _ live
  rw [counted, unreferenced] at balance
  simp at balance

end Heap

end CountedHeap
