import CountedHeap.Proofs.TableOrder

/-!
Contract: what an operation that reclaims nothing leaves alone.

`Keeps free` says that handles which were issued before keep what they name, except for the
containers in `free`, which the operation writes.  `Step free guard` adds that the invariant
holds afterwards, and that under `guard` hashes stay in order and count their pairs.

Owns:
- `Keeps`, `Step`, and their composition;
- the steps that the operations are made of, apart from copying.
-/

namespace CountedHeap.Heap

variable {σ : Signature} {heap heap' heap'' : Heap σ} {held held' : Multiset Value}

/-- No cell is gone, no handle changes its kind, and only containers in `free` have changed.
A table gets no bucket that was there before. -/
structure Keeps (free : Set Value) (heap heap' : Heap σ) : Prop where
  hashBuckets : heap'.config.hashBuckets = heap.config.hashBuckets
  issued : ∀ {value}, heap.Issued value → heap'.Issued value
  live : ∀ {value}, heap.Issued value → heap'.isLive value = heap.isLive value
  kind : ∀ {value}, heap.Issued value → heap'.kind value = heap.kind value
  payload : ∀ {value}, heap.Issued value →
    (value ∈ free → (heap.kind value).isMulti = false) →
      heap'.payload value = heap.payload value
  bucket : ∀ {table value}, heap.Issued value → heap'.HasBucket table value →
    heap.HasBucket table value

/-- An operation that leads from one heap to another and leaves `held` outside the cells. -/
structure Step (free : Set Value) (guard : Prop) (heap heap' : Heap σ)
    (held : Multiset Value) : Prop where
  sound : heap'.Sound held
  keeps : Keeps free heap heap'
  tables : guard → heap.TablesOrdered → heap'.TablesOrdered
  tallies : guard → heap.TablesTallied → heap'.TablesTallied

/-! ## Composition -/

theorem Keeps.refl (free : Set Value) (heap : Heap σ) : Keeps free heap heap where
  hashBuckets := rfl
  issued := id
  live := fun _ => rfl
  kind := fun _ => rfl
  payload := fun _ _ => rfl
  bucket := fun _ => id

/-- What the second step writes must be free at first, unless it is new. -/
theorem Keeps.trans {free free' : Set Value} (first : Keeps free heap heap')
    (second : Keeps free' heap' heap'')
    (covered : ∀ {value}, heap.Issued value → value ≠ .null → value ∈ free' → value ∈ free) :
    Keeps free heap heap'' where
  hashBuckets := second.hashBuckets.trans first.hashBuckets
  issued := fun issued => second.issued (first.issued issued)
  live := fun issued => (second.live (first.issued issued)).trans (first.live issued)
  kind := fun issued => (second.kind (first.issued issued)).trans (first.kind issued)
  payload := fun {value} issued scalar => by
    by_cases absent : value = .null
    · rw [absent]
      rfl
    · rw [second.payload (first.issued issued) fun written => ?_, first.payload issued scalar]
      rw [first.kind issued]
      exact scalar (covered issued absent written)
  bucket := fun issued has => first.bucket issued (second.bucket (first.issued issued) has)

theorem Keeps.mono {free free' : Set Value} (keeps : Keeps free heap heap')
    (covered : ∀ {value}, heap.Issued value → value ≠ .null → value ∈ free → value ∈ free') :
    Keeps free' heap heap' :=
  (Keeps.refl free' heap).trans keeps covered

theorem Step.refl (free : Set Value) (guard : Prop) (sound : heap.Sound held) :
    Step free guard heap heap held :=
  ⟨sound, Keeps.refl free heap, fun _ => id, fun _ => id⟩

theorem Step.trans {free free' : Set Value} {guard guard' : Prop}
    (first : Step free guard heap heap' held) (second : Step free' guard' heap' heap'' held')
    (covered : ∀ {value}, heap.Issued value → value ≠ .null → value ∈ free' → value ∈ free)
    (guarded : guard → guard') : Step free guard heap heap'' held' where
  sound := second.sound
  keeps := first.keeps.trans second.keeps covered
  tables := fun holds ordered => second.tables (guarded holds) (first.tables holds ordered)
  tallies := fun holds tallied => second.tallies (guarded holds) (first.tallies holds tallied)

theorem Step.andThen {free : Set Value} {guard : Prop}
    (first : Step free guard heap heap' held) (second : Step free guard heap' heap'' held') :
    Step free guard heap heap'' held' :=
  first.trans second (fun _ _ => id) id

theorem Step.mono {free free' : Set Value} {guard guard' : Prop}
    (step : Step free guard heap heap' held)
    (covered : ∀ {value}, heap.Issued value → value ≠ .null → value ∈ free → value ∈ free')
    (guarded : guard' → guard) : Step free' guard' heap heap' held :=
  ⟨step.sound, step.keeps.mono covered, fun holds => step.tables (guarded holds),
    fun holds => step.tallies (guarded holds)⟩

/-- A step that writes nothing may stand where others do. -/
theorem Step.weaken {free : Set Value} {guard : Prop} (step : Step ∅ True heap heap' held) :
    Step free guard heap heap' held :=
  step.mono (fun _ _ => False.elim) (fun _ => trivial)

theorem Keeps.not_isBucket {free : Set Value} (keeps : Keeps free heap heap') {value : Value}
    (issued : heap.Issued value) (unbucketed : ¬heap.IsBucket value) : ¬heap'.IsBucket value :=
  fun ⟨table, has⟩ => unbucketed ⟨table, keeps.bucket issued has⟩

/-! ## Tables that are left alone -/

theorem Keeps.sameKey {free : Set Value} (keeps : Keeps free heap heap') {value : Value}
    (issued : heap.Issued value) : SameKey heap heap' value value := by
  cases multi : (heap.kind value).isMulti with
  | true => exact sameKey_of_multi multi (keeps.kind issued)
  | false => exact sameKey_of_payload (keeps.payload issued fun _ => multi)

/-- A bucket that is not written stays as it is. -/
theorem Keeps.sameBucket {free : Set Value} (keeps : Keeps free heap heap')
    (sound : heap.Sound held) {table bucket : Value} {content : HashTable}
    (found : heap.table? table = some content) (member : bucket ∈ content.buckets)
    (untouched : bucket ≠ .null → bucket ∉ free) : SameBucket heap heap' bucket bucket := by
  have issued := sound.issued_bucket found member
  rcases sound.bucket_payload found member with absent | ⟨items, payload⟩
  · exact .inl ⟨absent, .inl absent⟩
  · have present : bucket ≠ .null := by
      rintro rfl
      simp [Heap.payload] at payload
    refine .inr ⟨items, items, payload, ?_, List.forall₂_same.mpr fun key inside =>
      keeps.sameKey (sound.issued_child
        (by rwa [children, payload] : key ∈ heap.children bucket))⟩
    rw [keeps.payload issued fun written => absurd written (untouched present), payload]

/-- A table stays in order if none of its buckets is written. -/
theorem Keeps.orderedTable {free : Set Value} (keeps : Keeps free heap heap')
    (sound : heap.Sound held) {table : Value} {content : HashTable}
    (found : heap.table? table = some content) (ordered : heap.OrderedTable content)
    (untouched : ∀ {bucket}, bucket ∈ content.buckets → bucket ≠ .null → bucket ∉ free) :
    heap'.OrderedTable content :=
  ordered.transport keeps.hashBuckets rfl (List.forall₂_same.mpr fun _ member =>
    keeps.sameBucket sound found member (untouched member))

/-- Tables go on to count their pairs if none of their buckets is written. -/
theorem Keeps.talliedOutside {free outside : Set Value} (keeps : Keeps free heap heap')
    (sound : heap.Sound held)
    (old : ∀ {table content}, table ∉ outside → heap'.table? table = some content →
      content = {} ∨ heap.table? table = some content)
    (untouched : ∀ {table content bucket}, table ∉ outside → heap.table? table = some content →
      bucket ∈ content.buckets → bucket ≠ .null → bucket ∉ free)
    (tallied : heap.TalliedOutside outside) : heap'.TalliedOutside outside := by
  intro table content inside found'
  rcases old inside found' with rfl | found
  · exact talliedTable_empty
  · exact (tallied inside found).transport rfl (List.forall₂_same.mpr fun _ member =>
      keeps.sameBucket sound found member (untouched inside found member))

/-! ## Steps that only count -/

theorem table?_congr (payload : ∀ value, heap'.payload value = heap.payload value)
    (table : Value) : heap'.table? table = heap.table? table := by
  rw [Heap.table?, payload, Heap.table?]

theorem Keeps.of_payload (hashBuckets : heap'.config.hashBuckets = heap.config.hashBuckets)
    (issued : ∀ {value}, heap.Issued value → heap'.Issued value)
    (live : ∀ value, heap'.isLive value = heap.isLive value)
    (payload : ∀ value, heap'.payload value = heap.payload value) : Keeps ∅ heap heap' where
  hashBuckets := hashBuckets
  issued := issued
  live := fun {value} _ => live value
  kind := fun {value} _ => by rw [Heap.kind, payload, Heap.kind]
  payload := fun {value} _ _ => payload value
  bucket := fun _ has => by
    obtain ⟨present, content, found, member⟩ := has
    rw [table?_congr payload] at found
    exact ⟨present, content, found, member⟩

theorem Step.of_payload (before : heap.Sound held) (sound : heap'.Sound held')
    (hashBuckets : heap'.config.hashBuckets = heap.config.hashBuckets)
    (issued : ∀ {value}, heap.Issued value → heap'.Issued value)
    (live : ∀ value, heap'.isLive value = heap.isLive value)
    (payload : ∀ value, heap'.payload value = heap.payload value) :
    Step ∅ True heap heap' held' where
  sound := sound
  keeps := .of_payload hashBuckets issued live payload
  tables := fun _ ordered {table content} found => by
    rw [table?_congr payload] at found
    exact (Keeps.of_payload hashBuckets issued live payload).orderedTable before found
      (ordered found) (fun _ _ => Set.notMem_empty _)
  tallies := fun _ => (Keeps.of_payload hashBuckets issued live payload).talliedOutside before
    (fun {table content} _ found => .inr (by rwa [table?_congr payload] at found))
    fun _ _ _ _ => Set.notMem_empty _

theorem config_modifyCell (value : Value) (change : Cell σ → Cell σ) :
    (heap.modifyCell value change).config = heap.config := by
  cases value <;> rfl

theorem config_releaseAll (heap : Heap σ) (values : List Value) :
    (heap.releaseAll values).config = heap.config := by
  induction values generalizing heap with
  | nil => rfl
  | cons value rest inductionHypothesis =>
      exact (inductionHypothesis (heap.release value)).trans (config_modifyCell value _)

theorem Step.retain (sound : heap.Sound held) {value : Value} (issued : heap.Issued value) :
    Step ∅ True heap (heap.retain value) (value ::ₘ held) :=
  .of_payload sound (sound.retain issued) (by rw [Heap.retain, config_modifyCell])
    (issued_retain value _).mpr (isLive_retain value) (payload_retain heap value)

theorem Step.release {value : Value} (sound : heap.Sound (value ::ₘ held)) :
    Step ∅ True heap (heap.release value) held :=
  .of_payload sound sound.release (by rw [Heap.release, config_modifyCell])
    (issued_release value _).mpr (isLive_release value) (payload_release heap value)

theorem Step.of_sameCells (sound : heap.Sound held) (same : SameCells heap heap') :
    Step ∅ True heap heap' held :=
  .of_payload sound (sound.of_sameCells same) same.hashBuckets
    (fun {value} => (same.issued value).mpr)
    (fun value => isLive_eq_of_cell?_eq (same.cell? value))
    (fun value => payload_eq_of_cell?_eq (same.cell? value))

/-! ## Steps that make a cell -/

/-- A new cell changes nothing that was there before, and a new hash is empty. -/
theorem Step.of_new (before : heap.Sound held) (sound : heap'.Sound held') {new : Value}
    (fresh : ¬heap.Issued new)
    (hashBuckets : heap'.config.hashBuckets = heap.config.hashBuckets)
    (issued : ∀ {value}, heap.Issued value → heap'.Issued value)
    (same : ∀ {value}, value ≠ new → heap'.cell? value = heap.cell? value)
    (empty : ∀ {content}, heap'.table? new = some content → content = {}) :
    Step ∅ True heap heap' held' := by
  have old : ∀ {value}, heap.Issued value → heap'.cell? value = heap.cell? value :=
    fun valueIssued => same fun equal => fresh (equal ▸ valueIssued)
  have table : ∀ {other content}, heap'.table? other = some content →
      content = {} ∨ heap.table? other = some content := by
    intro other content found
    by_cases isNew : other = new
    · exact .inl (empty (isNew ▸ found))
    · rw [table?_eq_some_iff, payload_eq_of_cell?_eq (same isNew), ← table?_eq_some_iff] at found
      exact .inr found
  have keeps : Keeps ∅ heap heap' :=
    { hashBuckets := hashBuckets
      issued := issued
      live := fun valueIssued => isLive_eq_of_cell?_eq (old valueIssued)
      kind := fun valueIssued => by
        rw [Heap.kind, payload_eq_of_cell?_eq (old valueIssued), Heap.kind]
      payload := fun valueIssued _ => payload_eq_of_cell?_eq (old valueIssued)
      bucket := fun _ has => by
        obtain ⟨present, content, found, member⟩ := has
        rcases table found with rfl | foundBefore
        · simp at member
        · exact ⟨present, content, foundBefore, member⟩ }
  refine ⟨sound, keeps, fun _ ordered {other content} found => ?_, fun _ =>
    keeps.talliedOutside before (fun _ => table) fun _ _ _ _ => Set.notMem_empty _⟩
  rcases table found with rfl | foundBefore
  · exact orderedTable_empty
  · exact keeps.orderedTable before foundBefore (ordered foundBefore)
      (fun _ _ => Set.notMem_empty _)

theorem Step.create {payload : Payload σ} (sound : heap.Sound (held + ↑payload.children))
    (durable : ∀ value ∈ payload.children, value.isScratch = false)
    (empty : ∀ content, payload = .hash content → content = {}) :
    Step ∅ True heap (heap.create payload).2 held := by
  have consistent := sound.toConsistent
  refine .of_new sound (sound.create durable fun content isHash => by rw [empty content isHash])
    (not_issued_create consistent payload) (by rw [config_create])
    (Issued.create payload)
    (fun different => by rw [cell?_create consistent, if_neg different])
    (fun {content} found => ?_)
  rw [table?_eq_some_iff, payload_create_self consistent payload] at found
  exact empty content found

theorem Step.createScratch (sound : heap.Sound held) {payload : Payload σ}
    (childless : payload.children = [])
    (pooled : payload.isPlainData = true ∨ payload.kind = .array) :
    Step ∅ True heap (heap.createScratch payload).2 held := by
  have new : (heap.createScratch payload).2.cell? (heap.createScratch payload).1 =
      some { payload } := by
    rw [cell?_createScratch, if_pos rfl]
  refine .of_new sound (sound.createScratch childless pooled)
    (not_issued_createScratch payload) rfl (Issued.createScratch payload)
    (fun different => by rw [cell?_createScratch, if_neg different]) (fun {content} found => ?_)
  rw [table?_eq_some_iff, payload_of_cell? new] at found
  simp only at found
  simp [found, Payload.isPlainData, Payload.kind] at pooled

/-! ## Writing a sequence -/

theorem payload_of_items? {sequence : Value} {items : List Value}
    (found : heap.items? sequence = some items) :
    heap.payload sequence = .array items ∨ heap.payload sequence = .program items := by
  unfold items? at found
  cases content : heap.payload sequence <;> simp_all [Payload.items?]

theorem table?_setChildren {sequence : Value} {items : List Value}
    (found : heap.items? sequence = some items) (items' : List Value) (other : Value) :
    (heap.setChildren sequence items').table? other = heap.table? other := by
  rw [setChildren_eq_setPayload, table?, payload_setPayload]
  split
  next same =>
    rw [same.1, table?]
    rcases payload_of_items? found with array | program
    · rw [array]; rfl
    · rw [program]; rfl
  next => rfl

/-- The items of a sequence are replaced; the ledger gives what is stored now and gets what was
stored before. -/
theorem Step.setItems (sound : heap.Sound held) {sequence : Value} {items items' : List Value}
    (found : heap.items? sequence = some items)
    (accounts : held + ↑items = held' + ↑items')
    (durable : ∀ value ∈ items', value ∈ items ∨ value.isScratch = false) :
    Step {sequence} (¬heap.IsBucket sequence) heap (heap.setChildren sequence items') held' := by
  have live := isLive_of_items? found
  have content := payload_of_items? found
  have children := children_of_items? found
  have table := table?_setChildren found items'
  rw [setChildren_eq_setPayload] at table ⊢
  have newChildren : ((heap.payload sequence).withChildren items').children = items' := by
    rcases content with array | program
    · rw [array]; rfl
    · rw [program]; rfl
  have notHash : ∀ table, (heap.payload sequence).withChildren items' ≠ .hash table := by
    intro table
    rcases content with array | program
    · rw [array]; simp [Payload.withChildren]
    · rw [program]; simp [Payload.withChildren]
  have sameKind : ((heap.payload sequence).withChildren items').kind = heap.kind sequence :=
    Payload.kind_withChildren items' _
  have multi : ((heap.payload sequence).withChildren items').kind.isMulti = true := by
    rcases content with array | program
    · rw [array]; rfl
    · rw [program]; rfl
  have keeps : Keeps {sequence} heap (heap.setPayload sequence
      ((heap.payload sequence).withChildren items')) :=
    { hashBuckets := by rw [Heap.setPayload, config_modifyCell]
      issued := (issued_setPayload _ _ _).mpr
      live := fun _ => isLive_setPayload _ _ _
      kind := fun _ => kind_setPayload sameKind _
      payload := fun {value} _ scalar => by
        rw [payload_setPayload, if_neg]
        rintro ⟨rfl, -⟩
        rw [Heap.kind, ← Payload.kind_withChildren items', multi] at scalar
        simp at scalar
      bucket := fun {other _} _ has => by
        obtain ⟨present, content, foundTable, member⟩ := has
        exact ⟨present, content, table other ▸ foundTable, member⟩ }
  refine ⟨sound.setPayload live sameKind multi ?_ ?_ fun table isHash => absurd isHash
    (notHash table), keeps, fun unbucketed ordered {other otherContent} foundTable => ?_,
    fun unbucketed => keeps.talliedOutside sound (fun {other _} _ foundTable => .inr ?_)
      fun {other otherContent bucket} _ foundTable member present => ?_⟩
  · rw [children, newChildren]
    exact accounts
  · rw [children, newChildren]
    exact durable
  · rw [table] at foundTable
    refine keeps.orderedTable sound foundTable (ordered foundTable)
      fun {bucket} member present => ?_
    rintro rfl
    exact unbucketed ⟨other, present, otherContent, foundTable, member⟩
  · rwa [table] at foundTable
  · rintro rfl
    exact unbucketed ⟨other, present, otherContent, foundTable, member⟩

end CountedHeap.Heap
