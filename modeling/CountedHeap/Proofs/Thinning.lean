import CountedHeap.Proofs.Sequences
import CountedHeap.Proofs.Sweeping

/-!
Contract: what reclaiming cells and closing scopes leave alone.

`Thins spared` says that cells may be gone, but those that are left hold what they held, and
that neither a value in `spared` nor a child of a cell that is left is among the gone.

Owns:
- `Thins`, its composition, and that tables stay in order and count their pairs;
- unwinding the scratch pool, and a sweep, as such changes.
-/

namespace CountedHeap.Heap

variable {σ : Signature} {heap heap' heap'' : Heap σ} {held : Multiset Value}
  {spared : Set Value}

/-- Cells that nothing needs are gone, the others are unchanged up to their counts. -/
structure Thins (spared : Set Value) (heap heap' : Heap σ) : Prop where
  hashBuckets : heap'.config.hashBuckets = heap.config.hashBuckets
  issued : ∀ {value}, heap.Issued value → heap'.Issued value
  live : ∀ {value}, heap'.isLive value = true → heap.isLive value = true
  payload : ∀ {value}, heap'.isLive value = true → heap'.payload value = heap.payload value
  spares : ∀ {value}, value ∈ spared → heap.isLive value = true → heap'.isLive value = true
  child : ∀ {holder value}, heap'.isLive holder = true → value ∈ heap.children holder →
    heap.isLive value = true → heap'.isLive value = true

theorem Thins.refl (spared : Set Value) (heap : Heap σ) : Thins spared heap heap where
  hashBuckets := rfl
  issued := id
  live := id
  payload := fun _ => rfl
  spares := fun _ => id
  child := fun _ _ => id

theorem Thins.children (thins : Thins spared heap heap') {holder : Value}
    (live : heap'.isLive holder = true) : heap'.children holder = heap.children holder :=
  children_of_payload_eq (thins.payload live)

theorem Thins.trans (first : Thins spared heap heap') (second : Thins spared heap' heap'') :
    Thins spared heap heap'' where
  hashBuckets := second.hashBuckets.trans first.hashBuckets
  issued := fun issued => second.issued (first.issued issued)
  live := fun live => first.live (second.live live)
  payload := fun live => (second.payload live).trans (first.payload (second.live live))
  spares := fun member live => second.spares member (first.spares member live)
  child := fun {holder value} holderLive member live => by
    have between := second.live holderLive
    refine second.child holderLive ?_ (first.child between member live)
    rwa [first.children between]

theorem Thins.mono {spared' : Set Value} (thins : Thins spared heap heap')
    (fewer : ∀ {value}, value ∈ spared' → value ∈ spared) : Thins spared' heap heap' :=
  { thins with spares := fun member => thins.spares (fewer member) }

theorem Thins.of_payload (spared : Set Value)
    (hashBuckets : heap'.config.hashBuckets = heap.config.hashBuckets)
    (issued : ∀ {value}, heap.Issued value → heap'.Issued value)
    (live : ∀ value, heap'.isLive value = heap.isLive value)
    (payload : ∀ value, heap'.payload value = heap.payload value) :
    Thins spared heap heap' where
  hashBuckets := hashBuckets
  issued := issued
  live := fun {value} isLive => by rwa [← live value]
  payload := fun {value} _ => payload value
  spares := fun {value} _ isLive => by rwa [live value]
  child := fun {_ value} _ _ isLive => by rwa [live value]

theorem Thins.releaseAll (spared : Set Value) (heap : Heap σ) (values : List Value) :
    Thins spared heap (heap.releaseAll values) := by
  induction values generalizing heap with
  | nil => exact .refl spared heap
  | cons value rest inductionHypothesis =>
      refine Thins.trans ?_ (inductionHypothesis (heap.release value))
      exact .of_payload spared (by rw [Heap.release, config_modifyCell])
        (issued_release value _).mpr (isLive_release value) (payload_release heap value)

theorem Thins.of_sameCells (spared : Set Value) (same : SameCells heap heap') :
    Thins spared heap heap' :=
  .of_payload spared same.hashBuckets (fun {value} => (same.issued value).mpr)
    (fun value => isLive_eq_of_cell?_eq (same.cell? value))
    (fun value => payload_eq_of_cell?_eq (same.cell? value))

/-! ## Tables -/

theorem Thins.table? (thins : Thins spared heap heap') {table : Value} {content : HashTable}
    (found : heap'.table? table = some content) : heap.table? table = some content := by
  have live := isLive_of_table? found
  rwa [table?_eq_some_iff, thins.payload live, ← table?_eq_some_iff] at found

/-- A value that a cell which is left refers to is what it was. -/
theorem Thins.payload_child (thins : Thins spared heap heap') {holder value : Value}
    (holderLive : heap'.isLive holder = true) (member : value ∈ heap.children holder) :
    heap'.payload value = heap.payload value := by
  by_cases live : heap.isLive value = true
  · exact thins.payload (thins.child holderLive member live)
  · have gone : heap'.isLive value = false := eq_false_of_ne_true fun stays =>
      live (thins.live stays)
    rw [payload_of_not_isLive gone, payload_of_not_isLive (eq_false_of_ne_true live)]

theorem Thins.sameBucket (thins : Thins spared heap heap') {table bucket : Value}
    {content : HashTable} (found : heap'.table? table = some content)
    (member : bucket ∈ content.buckets)
    (isBucket : bucket = .null ∨ ∃ items, heap.payload bucket = .array items) :
    SameBucket heap heap' bucket bucket := by
  have inside : bucket ∈ heap.children table := by
    rwa [children_of_table? (thins.table? found)]
  rcases isBucket with absent | ⟨items, payload⟩
  · exact .inl ⟨absent, .inl absent⟩
  · have live : heap.isLive bucket = true := isLive_of_payload_ne (by rw [payload]; simp)
    have stays := thins.child (isLive_of_table? found) inside live
    refine .inr ⟨items, items, payload, (thins.payload stays).trans payload,
      List.forall₂_same.mpr fun key keyMember => sameKey_of_payload ?_⟩
    exact thins.payload_child stays (by rwa [Heap.children, payload])

theorem Thins.orderedTable (thins : Thins spared heap heap') {table : Value}
    {content : HashTable} (found : heap'.table? table = some content)
    (ordered : heap.OrderedTable content) : heap'.OrderedTable content :=
  ordered.transport thins.hashBuckets rfl (List.forall₂_same.mpr fun _ member => by
    obtain ⟨slot, place⟩ := List.mem_iff_getElem?.mp member
    exact thins.sameBucket found member ((ordered.bucket place).imp_right fun
      ⟨items, payload, _⟩ => ⟨items, payload⟩))

theorem Thins.tablesOrdered (thins : Thins spared heap heap') (ordered : heap.TablesOrdered) :
    heap'.TablesOrdered := fun found =>
  thins.orderedTable found (ordered (thins.table? found))

theorem Thins.tablesTallied (thins : Thins spared heap heap') (sound : heap.Sound held)
    (tallied : heap.TablesTallied) : heap'.TablesTallied := by
  intro table content _ found
  have before := thins.table? found
  exact (tallied (Set.notMem_empty _) before).transport rfl
    (List.forall₂_same.mpr fun _ member =>
      thins.sameBucket found member (sound.bucket_payload before member))

theorem Thins.bucket (thins : Thins spared heap heap') {table value : Value}
    (has : heap'.HasBucket table value) : heap.HasBucket table value := by
  obtain ⟨present, content, found, member⟩ := has
  exact ⟨present, content, thins.table? found, member⟩

/-! ## Closing a scope -/

/-- The values that a scope spares: those outside the pool, and the cells below its mark. -/
def belowMark (mark : Nat) : Set Value :=
  {value | match value with
    | .scratch id => id.index < mark
    | _ => True}

theorem cell?_dropScratch_of_mem_belowMark {mark : Nat} {value : Value}
    (below : value ∈ belowMark mark) : (heap.dropScratch mark).cell? value = heap.cell? value := by
  cases value with
  | null => rfl
  | cell id => rfl
  | scratch id =>
      have less : id.index < mark := below
      simp only [Heap.cell?, dropScratch, Array.getElem?_extract]
      by_cases inside : id.index < heap.scratch.size
      · rw [if_pos (by omega), Nat.zero_add]
      · rw [if_neg (by omega), Array.getElem?_eq_none (by omega)]

theorem mem_belowMark_of_isLive {value : Value} (live : heap.isLive value = true) :
    value ∈ belowMark heap.scratch.size := by
  cases value with
  | null => trivial
  | cell id => trivial
  | scratch id =>
      obtain ⟨cell, found⟩ := isLive_iff.mp live
      simp only [Heap.cell?] at found
      show id.index < heap.scratch.size
      by_contra outside
      rw [Array.getElem?_eq_none (by omega)] at found
      contradiction

theorem mem_belowMark_of_not_isScratch {value : Value} (durable : value.isScratch = false)
    (mark : Nat) : value ∈ belowMark mark := by
  cases value with
  | null => trivial
  | cell id => trivial
  | scratch id => contradiction

theorem Thins.dropScratch (sound : heap.Sound held) (mark : Nat) :
    Thins (belowMark mark) heap (heap.dropScratch mark) where
  hashBuckets := rfl
  issued := fun {value} issued => by cases value <;> exact issued
  live := fun live => by
    rwa [isLive_eq_of_cell?_eq (cell?_dropScratch_of_isLive mark live)] at live
  payload := fun live => payload_eq_of_cell?_eq (cell?_dropScratch_of_isLive mark live)
  spares := fun below live => by
    rwa [isLive_eq_of_cell?_eq (cell?_dropScratch_of_mem_belowMark below)]
  child := fun _ member live => by
    rwa [isLive_eq_of_cell?_eq
      (cell?_dropScratch_of_not_isScratch mark (sound.durable member))]

theorem Thins.unwind (sound : heap.Sound held) (mark : Nat) :
    (heap.unwind mark).Sound held ∧ Thins (belowMark mark) heap (heap.unwind mark) := by
  have releasing := Step.releaseAll (sound.dropScratch mark)
  exact ⟨releasing.sound, (Thins.dropScratch sound mark).trans (.releaseAll _ _ _)⟩

/-- An operation in a scope of its own leaves no scratch cell behind that was not there
before. -/
theorem Step.unwind {free : Set Value} {guard : Prop}
    (step : Step free guard heap heap' held) :
    Step free guard heap (heap'.unwind heap.scratch.size) held := by
  obtain ⟨sound, thins⟩ := Thins.unwind step.sound heap.scratch.size
  have live : ∀ {value}, heap.Issued value →
      (heap'.unwind heap.scratch.size).isLive value = heap.isLive value := by
    intro value issued
    rw [Bool.eq_iff_iff]
    refine ⟨fun stays => ?_, fun isLive => ?_⟩
    · rw [← step.keeps.live issued]
      exact thins.live stays
    · exact thins.spares (mem_belowMark_of_isLive isLive) (by rw [step.keeps.live issued, isLive])
  have payload : ∀ {value}, heap.Issued value →
      (heap'.unwind heap.scratch.size).payload value = heap'.payload value := by
    intro value issued
    by_cases isLive : heap.isLive value = true
    · exact thins.payload (by rw [live issued, isLive])
    · rw [payload_of_not_isLive (by rw [live issued]; exact eq_false_of_ne_true isLive),
        payload_of_not_isLive (by rw [step.keeps.live issued]; exact eq_false_of_ne_true isLive)]
  refine ⟨sound, ⟨thins.hashBuckets.trans step.keeps.hashBuckets,
    fun issued => thins.issued (step.keeps.issued issued), live, fun issued => ?_,
    fun issued scalar => (payload issued).trans (step.keeps.payload issued scalar),
    fun issued has => step.keeps.bucket issued (thins.bucket has)⟩,
    fun holds ordered => thins.tablesOrdered (step.tables holds ordered),
    fun holds tallied => thins.tablesTallied step.sound (step.tallies holds tallied)⟩
  rw [kind, payload issued, ← kind, step.keeps.kind issued]

/-! ## Sweeping -/

/-- The values that no sweep reclaims whatever refers to them: those that are held, and the
scratch values. -/
def anchors (held : Multiset Value) : Set Value :=
  {value | value ∈ held ∨ value.isScratch = true}

/-- What can be reached from a held value or from a cell of the pool. -/
inductive Anchored (heap : Heap σ) (held : Multiset Value) : Value → Prop
  | anchor {value : Value} (member : value ∈ anchors held) : Anchored heap held value
  | child {holder value : Value} (anchored : Anchored heap held holder)
      (member : value ∈ heap.children holder) : Anchored heap held value

/-- Nothing that is anchored is given up. -/
theorem Anchored.isLive (thins : Thins (anchors held) heap heap') {value : Value}
    (anchored : heap.Anchored held value) (live : heap.isLive value = true) :
    heap'.isLive value = true := by
  induction anchored with
  | anchor member => exact thins.spares member live
  | child _ member inductionHypothesis =>
      exact thins.child (inductionHypothesis (isLive_of_mem_children member)) member live

/-- Nobody holds the cell that is reclaimed. -/
theorem Thins.vacate (exact_ : heap.Exact held) {index : Nat} {cell : Cell σ}
    (occupied : heap.occupant? index = some cell) (zero : cell.refs = 0) :
    Thins (anchors held) heap (heap.vacate index) := by
  have found : heap.cell? (heap.occupantHandle index) = some cell := by
    rw [cell?_occupantHandle, occupied]
  obtain ⟨notHeld, notReferenced⟩ := exact_.unreferenced (isLive_of_cell? found)
    (by simp [refs, found, zero])
  have stays : ∀ {value}, value ≠ heap.occupantHandle index → heap.isLive value = true →
      (heap.vacate index).isLive value = true := by
    intro value different live
    rwa [isLive, cell?_vacate, if_neg different]
  refine ⟨rfl, Issued.vacate index, fun live => ?_,
    fun live => payload_eq_of_cell?_eq (cell?_vacate_of_isLive live),
    fun anchor live => stays ?_ live, fun _ member live => stays ?_ live⟩
  · rwa [isLive_eq_of_cell?_eq (cell?_vacate_of_isLive live)] at live
  · rintro rfl
    rcases anchor with isHeld | scratch
    · exact notHeld isHeld
    · rw [isScratch_occupantHandle] at scratch
      contradiction
  · rintro rfl
    exact notReferenced (mem_references member)

/-- A visit where counts are exact reclaims nothing that is held or referred to. -/
theorem Thins.visit (exact_ : heap.Exact held) (progress : Progress) :
    Thins (anchors held) heap (Heap.visit progress heap).2 := by
  rcases visit_cases progress heap with ⟨passed, -⟩ | ⟨cell, occupied, zero, reclaimed⟩
  · rw [passed]
    exact .of_sameCells _ (.counters heap _ _)
  · rw [reclaimed]
    have thins := (Thins.vacate exact_ occupied zero).trans
      (.releaseAll _ _ cell.payload.children)
    exact thins.trans (.of_sameCells _ (.counters _ _ _))

theorem Sound.visit (sound : heap.Sound held) (progress : Progress) :
    (Heap.visit progress heap).2.Sound held := by
  rcases visit_cases progress heap with ⟨passed, -⟩ | ⟨cell, occupied, zero, reclaimed⟩
  · rw [passed]
    exact sound.of_sameCells (.counters heap _ _)
  · rw [reclaimed]
    have releasing := Step.releaseAll (sound.vacate occupied zero)
    exact releasing.sound.of_sameCells (.counters _ _ _)

/-- A sweep where counts are exact keeps them so, and reclaims nothing that is held or referred
to. -/
theorem Exact.sweep (exact_ : heap.Exact held) (budget : Budget) :
    (heap.sweep budget).2.Exact held ∧ Thins (anchors held) heap (heap.sweep budget).2 := by
  apply sweep_induction fun current => current.Exact held ∧ Thins (anchors held) heap current
  · rintro progress current ⟨exactBefore, before⟩
    exact ⟨exactBefore.visit progress, before.trans (.visit exactBefore progress)⟩
  · rintro current ⟨swept, thins⟩
    have reset : SameCells current { current with allocated := 0 } := .counters current _ _
    exact ⟨swept.of_cell? reset.cell?, thins.trans (.of_sameCells _ reset)⟩
  · exact ⟨exact_, .refl _ heap⟩

/-- A sweep keeps the invariant. -/
theorem Thins.sweep (sound : heap.Sound held) (budget : Budget) :
    (heap.sweep budget).2.Sound held ∧ Thins (anchors held) heap (heap.sweep budget).2 := by
  refine ⟨?_, (sound.toCounted.exact.sweep budget).2⟩
  apply sweep_induction fun current => current.Sound held
  · intro progress current before
    exact before.visit progress
  · intro current swept
    exact swept.of_sameCells (.counters current _ _)
  · exact sound

end CountedHeap.Heap
