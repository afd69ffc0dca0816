import CountedHeap.Proofs.Counters
import CountedHeap.Proofs.Scripts

/-!
Contract: counts are exact, so a sweep takes only what nobody needs.

Owns:
- the exact count of every cell in a session without calls, and with it how many holders a word
  can count;
- `Needed`, what can be reached from what is held and from the pool;
- a sweep, from any slot and of any size, spares what is needed, changes no cell that it
  leaves, and lowers counts by what the reclaimed cells referred to;
- sweeps that do otherwise: where words could not count the holders of a value or its predecessors,
  where a container was put together by hand, and where an array is being sorted.
-/

namespace CountedHeap

variable {σ : Signature} {heap heap' : Heap σ} {held : Multiset Value}

namespace Heap

/-- The cells of one heap that are gone in another. -/
def reclaimed (heap heap' : Heap σ) : List Value :=
  heap.handles.filter fun value => !heap'.isLive value

theorem mem_reclaimed_iff {value : Value} :
    value ∈ heap.reclaimed heap' ↔ heap.isLive value = true ∧ heap'.isLive value = false := by
  rw [reclaimed, List.mem_filter, mem_handles_iff, Bool.not_eq_true']

/-- What a cell that is gone referred to is no longer counted. -/
theorem Thins.refs_eq {spared : Set Value} (thins : Thins spared heap heap')
    (sound : heap.Sound held) (sound' : heap'.Sound held) {value : Value}
    (live : heap'.isLive value = true) :
    heap.refs value =
      heap'.refs value + ((heap.reclaimed heap').flatMap heap.children).count value := by
  have distinct : (heap.reclaimed heap').Nodup := handles_nodup.filter _
  have references : heap.references.count value = heap'.references.count value +
      ((heap.reclaimed heap').flatMap heap.children).count value := by
    refine count_references_of_gone heap heap' distinct
      (fun other gone => (mem_reclaimed_iff.mp gone).1) (fun other => ?_) (fun other stays => ?_)
      value
    · rw [mem_reclaimed_iff, not_and, Bool.not_eq_false]
      exact ⟨fun live => ⟨fun _ => live, thins.live live⟩, fun ⟨stays, live⟩ => stays live⟩
    · by_cases isLive : heap'.isLive other = true
      · exact thins.children isLive
      · rw [Bool.not_eq_true] at isLive
        have stale : heap.isLive other = false := eq_false_of_ne_true fun live =>
          stays (mem_reclaimed_iff.mpr ⟨live, isLive⟩)
        rw [children_of_not_isLive isLive, children_of_not_isLive stale]
  rw [sound.refs_eq (thins.live live), sound'.refs_eq live, references]
  omega

end Heap

namespace Session

variable {session : Session σ}

/-- Where no callable runs, the count of every cell is the number of references that the program
retained and has not released, and of those in the cells of the heap. -/
theorem refs_eq_owners_add_references {config : Config}
    (reaches : Reaches (fun _ event => event.isPlain = true) (.start config) session)
    {value : Value} (live : session.heap.isLive value = true) :
    session.heap.refs value =
      session.owners.count value + session.heap.references.count value :=
  reaches.sound_owners.refs_eq live

/-- A string in an array, in a copy of the array and in a hash, and retained. -/
def sharingScript : List (Event .bare) :=
  [.request (.string "a"), .request (.arrayOf [.cell ⟨0, 0⟩, .cell ⟨0, 0⟩]),
    .retain (.cell ⟨1, 0⟩), .request .hash, .root (.cell ⟨2, 0⟩),
    .openScope, .request (.scratchString "k"),
    .request (.setKey (.cell ⟨2, 0⟩) (.scratch ⟨0, 0⟩) (.cell ⟨0, 0⟩)), .closeScope,
    .retain (.cell ⟨0, 0⟩), .request (.clone (.cell ⟨1, 0⟩)),
    .request (.setPath (.cell ⟨2, 0⟩) (.cell ⟨0, 0⟩) (.cell ⟨5, 0⟩)), .sweep .full]

theorem isSome_sharing : (run? (fun _ event => event.isPlain = true)
    (.start { hashBuckets := 2 }) sharingScript).isSome = true := by
  decide +kernel

theorem refs_of_shared_string : ∃ session : Session .bare,
    Reaches (fun _ event => event.isPlain = true) (.start { hashBuckets := 2 }) session ∧
      session.heap.isLive (.cell ⟨0, 0⟩) = true ∧ session.heap.refs (.cell ⟨0, 0⟩) = 6 ∧
      session.owners.count (.cell ⟨0, 0⟩) +
        session.heap.references.count (.cell ⟨0, 0⟩) = 6 := by
  have reaches := reaches_of_run? .refl (Option.some_get isSome_sharing).symm
  have live : ((run? _ _ sharingScript).get isSome_sharing).heap.isLive (.cell ⟨0, 0⟩) = true := by
    decide +kernel
  have refs : ((run? _ _ sharingScript).get isSome_sharing).heap.refs (.cell ⟨0, 0⟩) = 6 := by
    decide +kernel
  exact ⟨_, reaches, live, refs, (refs_eq_owners_add_references reaches live).symm.trans refs⟩

/-- A count in a word is exact as long as a value has fewer holders than there are words. -/
theorem retainWord_eq_retain_of_holders {config : Config}
    (reaches : Reaches (fun _ event => event.isPlain = true) (.start config) session)
    {value : Value}
    (few : session.owners.count value + session.heap.references.count value < largestWord) :
    session.heap.retainWord value = session.heap.retain value := by
  refine Heap.retainWord_eq_retain ?_
  cases live : session.heap.isLive value with
  | true => rwa [reaches.sound_owners.refs_eq live]
  | false =>
      have stale : session.heap.cell? value = none := by simpa [Heap.isLive] using live
      rw [Heap.refs, stale]
      exact Nat.zero_lt_succ _

/-- What can be reached from a held value or from a cell of the pool. -/
inductive Needed (session : Session σ) : Value → Prop
  | held {value : Value} (member : value ∈ session.held) : Needed session value
  | scratch {value : Value} (pooled : value.isScratch = true) : Needed session value
  | child {holder value : Value} (needed : Needed session holder)
      (member : value ∈ session.heap.children holder) : Needed session value

theorem Needed.anchored {value : Value} (needed : session.Needed value) :
    session.heap.Anchored session.held value := by
  induction needed with
  | held member => exact .anchor (.inl member)
  | scratch pooled => exact .anchor (.inr pooled)
  | child _ member inductionHypothesis => exact .child inductionHypothesis member

theorem Needed.isLive {spared : Set Value} (thins : Heap.Thins spared session.heap heap')
    (anchors : ∀ value, value ∈ session.held ∨ value.isScratch = true → value ∈ spared)
    {value : Value} (needed : session.Needed value)
    (live : session.heap.isLive value = true) : heap'.isLive value = true :=
  needed.anchored.isLive (thins.mono fun {_} anchor => anchors _ anchor) live

/-- A sweep, from any slot and of any size, reclaims no cell that is needed.  A cell that it
leaves holds what it held, and its count is lower by its occurrences in the cells that were
reclaimed. -/
theorem sweep_spares_needed {config : Config}
    (reaches : Reaches (fun _ _ => True) (.start config) session) (cursor : Nat)
    (budget : Budget) :
    let swept := ({ session.heap with cursor }.sweep budget).2
    (∀ value, session.Needed value → session.heap.isLive value = true →
      swept.isLive value = true) ∧
    ∀ value, swept.isLive value = true →
      session.heap.isLive value = true ∧
      swept.payload value = session.heap.payload value ∧
      session.heap.refs value = swept.refs value +
        ((session.heap.reclaimed swept).flatMap session.heap.children).count value := by
  intro swept
  obtain ⟨leaked, sound⟩ := reaches.sound (sound_start config)
  have moved : Heap.SameCells session.heap { session.heap with cursor } :=
    ⟨rfl, rfl, rfl, rfl, rfl⟩
  obtain ⟨soundSwept, sweeping⟩ := Heap.Thins.sweep (sound.heap.of_sameCells moved) budget
  have thins := (Heap.Thins.of_sameCells _ moved).trans sweeping
  refine ⟨fun value needed live => needed.isLive thins (fun other anchor => ?_) live,
    fun value live => ⟨thins.live live, thins.payload live,
      thins.refs_eq sound.heap soundSwept live⟩⟩
  exact anchor.imp_left fun member => Multiset.mem_add.mpr (.inl member)

/-- Two strings that are being compared while their array is sorted, and an array that nobody
holds, with one of them in it. -/
def comparingScript : List (Event .bare) :=
  [.request (.string "b"), .request (.string "a"),
    .request (.arrayOf [.cell ⟨0, 0⟩, .cell ⟨1, 0⟩]), .retain (.cell ⟨2, 0⟩),
    .request (.native (.core .len)), .request (.arrayOf [.cell ⟨0, 0⟩]),
    .detach (.cell ⟨2, 0⟩), .enter (.cell ⟨3, 0⟩) [.cell ⟨1, 0⟩, .cell ⟨0, 0⟩]]

theorem isSome_comparing :
    (run? (fun _ _ => True) (.start {}) comparingScript).isSome = true := by
  decide +kernel

theorem sweep_spares_compared_string : ∃ session : Session .bare,
    Reaches (fun _ _ => True) (.start {}) session ∧
      session.Needed (.cell ⟨0, 0⟩) ∧ session.heap.isLive (.cell ⟨0, 0⟩) = true ∧
      ({ session.heap with cursor := 3 }.sweep .full).2.isLive (.cell ⟨0, 0⟩) = true ∧
      session.heap.refs (.cell ⟨0, 0⟩) = 3 ∧
      ({ session.heap with cursor := 3 }.sweep .full).2.refs (.cell ⟨0, 0⟩) = 2 ∧
      ((session.heap.reclaimed ({ session.heap with cursor := 3 }.sweep .full).2).flatMap
        session.heap.children).count (.cell ⟨0, 0⟩) = 1 := by
  have reaches := reaches_of_run? .refl (Option.some_get isSome_comparing).symm
  have held : .cell ⟨0, 0⟩ ∈ ((run? _ _ comparingScript).get isSome_comparing).held := by
    decide +kernel
  have live : ((run? _ _ comparingScript).get isSome_comparing).heap.isLive (.cell ⟨0, 0⟩) =
      true := by
    decide +kernel
  have refs : ((run? _ _ comparingScript).get isSome_comparing).heap.refs (.cell ⟨0, 0⟩) = 3 := by
    decide +kernel
  obtain ⟨spares, leaves⟩ := sweep_spares_needed reaches 3 .full
  have stays := spares _ (.held held) live
  have after : ({ ((run? _ _ comparingScript).get isSome_comparing).heap with
      cursor := 3 }.sweep .full).2.refs (.cell ⟨0, 0⟩) = 2 := by
    decide +kernel
  refine ⟨_, reaches, .held held, live, stays, refs, after, ?_⟩
  have drops := (leaves _ stays).2.2
  rw [refs, after] at drops
  omega

/-- A number. -/
def oneNumber : Heap .bare :=
  ((Heap.new {}).int 7).2

/-- An array that is held, made of its payload with a number in it that nobody retained. -/
def handMadeArray : Heap .bare :=
  (oneNumber.create (.array [.cell ⟨0, 0⟩])).2.retain (.cell ⟨1, 0⟩)

/-- An array of two numbers that nobody holds. -/
def unheldScript : List (Event .bare) :=
  [.request (.int 2), .request (.int 1), .request (.arrayOf [.cell ⟨0, 0⟩, .cell ⟨1, 0⟩])]

theorem isSome_unheld : (run? (fun _ _ => True) (.start {}) unheldScript).isSome = true := by
  decide +kernel

/-- A sort of the array by a comparator that sweeps. -/
def sweptSortScript : List (Event .bare) :=
  [.detach (.cell ⟨2, 0⟩), .sweep .full, .restore (.cell ⟨2, 0⟩) [.cell ⟨0, 0⟩, .cell ⟨1, 0⟩]]

theorem isSome_sweptSort : (run? (fun _ _ => True)
    ((run? (fun _ _ => True) (.start {}) unheldScript).get isSome_unheld)
    sweptSortScript).isSome = true := by
  decide +kernel

/-- A sweep reclaims a number that was retained once more than it was released, if it was retained
more often than a word can count.  It reclaims a number whose handle was retained when it named
nothing, if the slot was reclaimed so often that its generation began again.  It reclaims the item
of an array that is held, if the array was put together by hand.  And it can reclaim an array that
is being sorted without releasing the items. -/
theorem sweep_reclaims_miscounted :
    (∃ lasting, lasting = (Heap.release · (.cell ⟨0, 0⟩))^[largestWord]
          ((Heap.retainWord · (.cell ⟨0, 0⟩))^[largestWord + 1] oneNumber) ∧
        lasting.isLive (.cell ⟨0, 0⟩) = true ∧
        (lasting.sweep .full).2.isLive (.cell ⟨0, 0⟩) = false) ∧
    (∃ reused, reused = ((Heap.recycleWord (.int 7))^[largestWord]
          ((oneNumber.vacateWord 0).retain (.cell ⟨0, 0⟩))).int 7 ∧
        reused.1 = .cell ⟨0, 0⟩ ∧ reused.2.isLive (.cell ⟨0, 0⟩) = true ∧
        (reused.2.sweep .full).2.isLive (.cell ⟨0, 0⟩) = false) ∧
    (handMadeArray.refs (.cell ⟨1, 0⟩) = 1 ∧
      handMadeArray.children (.cell ⟨1, 0⟩) = [.cell ⟨0, 0⟩] ∧
      handMadeArray.isLive (.cell ⟨0, 0⟩) = true ∧
      (handMadeArray.sweep .full).2.isLive (.cell ⟨1, 0⟩) = true ∧
      (handMadeArray.sweep .full).2.isLive (.cell ⟨0, 0⟩) = false) ∧
    ∃ session session' : Session .bare, Reaches (fun _ _ => True) (.start {}) session ∧
      Reaches (fun _ _ => True) session session' ∧ session.owners = 0 ∧ session'.owners = 0 ∧
      session'.activities.isEmpty = true ∧
      session.heap.children (.cell ⟨2, 0⟩) = [.cell ⟨0, 0⟩, .cell ⟨1, 0⟩] ∧
      session.heap.refs (.cell ⟨0, 0⟩) = 1 ∧ session'.heap.isLive (.cell ⟨2, 0⟩) = false ∧
      session'.heap.refs (.cell ⟨0, 0⟩) = 1 := by
  refine ⟨⟨_, rfl, ?_⟩, ⟨_, rfl, ?_⟩, by decide +kernel, _, _,
    reaches_of_run? .refl (Option.some_get isSome_unheld).symm,
    reaches_of_run? .refl (Option.some_get isSome_sweptSort).symm, by decide +kernel⟩
  · rw [Heap.release_of_saturated _ _ (Nat.le_refl _)]
    decide +kernel
  · have free : (oneNumber.vacateWord 0).retain (.cell ⟨0, 0⟩) = Heap.oneFreeSlot 1 1 := rfl
    rw [free, Heap.iterate_recycleWord, iterate_nextWord (by decide)]
    decide +kernel

end Session

end CountedHeap
