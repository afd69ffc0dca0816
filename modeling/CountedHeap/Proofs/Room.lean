import CountedHeap.Proofs.Tables

/-!
Contract: storing a key succeeds if there is room for one pair more.

Owns: the operations on the way that ask for room, and when they get it.
-/

namespace CountedHeap.Heap

variable {σ : Signature} {heap heap' : Heap σ} {held : Multiset Value}

/-- Storing at a place that exists asks for no room. -/
theorem exists_setItem (sound : heap.Sound held) {sequence element : Value} {items : List Value}
    {index : Nat} (content : heap.payload sequence = .array items) (inside : index < items.length)
    (issued : heap.Issued element) :
    ∃ answer heap', heap.setItem sequence element index = .ok (answer, heap') := by
  have found : heap.items? sequence = some items := by
    rw [items?, content]
    rfl
  have issuedSequence := sound.toConsistent.issued (isLive_of_items? found)
  have kept : (heap.own element).2.items? sequence = some items := by
    rw [items?, (Step.own sound issued).keeps.payload issuedSequence fun none => none.elim,
      ← items?, found]
  simp only [setItem, itemPosition?, found, position?_ofNat, bind, Option.bind, kept]
  rw [padTo_of_le (show index + 1 ≤ items.length by omega)]
  exact ⟨_, _, rfl⟩

/-- A gap inside an array can be opened if the array may grow by its width. -/
theorem exists_expandItems {sequence : Value} {items : List Value} {index count : Nat}
    (content : heap.payload sequence = .array items) (inside : index ≤ items.length)
    (room : items.length + count ≤ elementLimit) :
    ∃ answer heap', heap.expandItems sequence index count = .ok (answer, heap') := by
  have found : heap.items? sequence = some items := by
    rw [items?, content]
    rfl
  have grown : padTo (items.length + count) items =
      .ok (items ++ List.replicate (items.length + count - items.length) .null) :=
    padTo_eq_ok_iff.mpr ⟨.inr room, rfl⟩
  simp only [expandItems, found, position?_ofNat]
  rw [padTo_of_le inside]
  simp only [bind, Except.bind, grown]
  exact ⟨_, _, rfl⟩

theorem exists_allocatedBuckets (content : HashTable)
    (room : max heap.config.hashBuckets 1 ≤ elementLimit) :
    ∃ buckets, heap.allocatedBuckets content = .ok buckets := by
  unfold allocatedBuckets
  split
  next => exact ⟨_, padTo_eq_ok_iff.mpr ⟨.inr room, rfl⟩⟩
  next => exact ⟨_, rfl⟩

/-- A bucket holds no more than all buckets. -/
theorem OrderedTable.length_items_le {table bucket : Value} {content : HashTable} {slot : Nat}
    {items : List Value} (ordered : heap.OrderedTable content)
    (here : heap.Place table content slot bucket items) :
    items.length ≤ 2 * (heap.entries table).length := by
  have even := (here.ordered ordered).even
  have cut := congrArg List.length (entries_cut here.found here.place)
  rw [bucketEntries_of_payload here.payload, named] at cut
  simp only [List.length_append, List.length_map, length_pairUp] at cut
  omega

theorem exists_openKey (sound : heap.Sound held) {table key : Value} {content : HashTable}
    (found : heap.table? table = some content) (ordered : heap.OrderedTable content)
    (issued : heap.Issued key) (slots : max heap.config.hashBuckets 1 ≤ elementLimit)
    (room : 2 * content.pairs + 2 ≤ elementLimit) :
    ∃ place opened, heap.openKey table key = .ok (place, opened) := by
  obtain ⟨buckets, allocated⟩ := exists_allocatedBuckets content slots
  cases made : (heap.setTable table { content with buckets }).bucketArray table
      { content with buckets } (Text.bucketOf (heap.text key) buckets.length) with
  | mk bucket ready =>
      have isReady := ready_bucketArray sound found allocated made
      obtain ⟨content', items, here, ordering⟩ := isReady.place
      obtain ⟨orderedReady, entries⟩ := ordering fun otherFound => by
        rw [found] at otherFound
        exact Option.some.inj otherFound ▸ ordered
      have itemsFound : ready.items? bucket = some items := by
        rw [items?, here.payload]
        rfl
      have length := orderedReady.length_items_le here
      rw [entries, ← ordered.pairs_eq found] at length
      rcases (here.ordered orderedReady).seekKey (heap.text key) with
        ⟨before, _, _, _, sought, -, -, -⟩ | ⟨before, after, sought, whole, -, -, -⟩
      · refine ⟨some (bucket, before.length), ready, ?_⟩
        simp only [openKey, found]
        rw [allocated]
        simp only [bind, Except.bind, made, itemsFound, sought]
        rfl
      · have payload := here.payload
        rw [whole] at payload
        obtain ⟨grown, expanded, expanding⟩ := exists_expandItems here.payload
          (by simp [whole] : before.length ≤ items.length) (by omega : items.length + 2 ≤ _)
        have expandStep := Step.expandItems isReady.step.sound expanding
        have expandedPayload : expanded.payload bucket =
            .array (before ++ .null :: .null :: after) := by
          rw [expandItems_of_payload payload expanding, setChildren_eq_setPayload,
            payload_setPayload, if_pos ⟨rfl, isLive_of_items? itemsFound⟩, payload]
          rfl
        obtain ⟨answer, stored, storing⟩ := exists_setItem expandStep.sound expandedPayload
          (by simp : before.length < (before ++ .null :: .null :: after).length)
          (expandStep.keeps.issued (isReady.step.keeps.issued issued))
        refine ⟨some (bucket, before.length), stored.countPair table, ?_⟩
        simp only [openKey, found]
        rw [allocated]
        simp only [bind, Except.bind, made, itemsFound, sought, expanding, storing]
        rfl

/-- A key can be stored if its table may have another pair. -/
theorem exists_setKey (sound : heap.Sound held) {table key value : Value} {content : HashTable}
    (found : heap.table? table = some content) (ordered : heap.OrderedTable content)
    (fixed : (heap.kind key).hasFixedText = true) (issuedKey : heap.Issued key)
    (issuedValue : heap.Issued value) (slots : max heap.config.hashBuckets 1 ≤ elementLimit)
    (room : 2 * content.pairs + 2 ≤ elementLimit) :
    ∃ answer heap', heap.setKey table key value = .ok (answer, heap') := by
  obtain ⟨place, opened, opening⟩ := exists_openKey sound found ordered issuedKey slots room
  rw [setKey_eq_openKey, opening]
  rcases opened_openKey sound issuedKey opening with
    ⟨absent, -, -⟩ | ⟨bucket, index, rfl, isOpened⟩
  · rw [found] at absent
    contradiction
  · obtain ⟨_, before, stored, old, after, _, _, here, rfl, -⟩ := isOpened.place fixed
      fun otherFound => by
        rw [found] at otherFound
        exact Option.some.inj otherFound ▸ ordered
    exact exists_setItem isOpened.step.sound here.payload (by simp)
      (isOpened.step.keeps.issued issuedValue)

end CountedHeap.Heap
