import CountedHeap.Proofs.Entries
import CountedHeap.Proofs.Sequences

/-!
Contract: the operations on hashes.

Storing a pair is a sequence of writes: the buckets and the array of one bucket are made, a gap
is opened, the key is stored, the pair is counted, and at last the value is stored.  `openKey`
is all of this but the last write.

Owns:
- one step for each operation;
- that tables stay in order, and how their entries change;
- that tables go on counting their pairs, also under keys whose text can change.
-/

namespace CountedHeap.Heap

variable {σ : Signature} {heap heap' : Heap σ} {held held' : Multiset Value}

/-- What an operation on a hash may write: the hash and its buckets. -/
def tableCells (heap : Heap σ) (table : Value) : Set Value :=
  {value | value = table ∨ value ∈ heap.children table}

/-! ## Replacing a table -/

theorem setTable_eq_setPayload (table : Value) (content : HashTable) :
    heap.setTable table content = heap.setPayload table (.hash content) := rfl

theorem payload_setTable (table other : Value) (content : HashTable) :
    (heap.setTable table content).payload other =
      if other = table ∧ heap.isLive table = true then .hash content else heap.payload other := by
  rw [setTable_eq_setPayload, payload_setPayload]

theorem table?_setTable {table : Value} {content content' : HashTable}
    (found : heap.table? table = some content) :
    (heap.setTable table content').table? table = some content' := by
  rw [table?_eq_some_iff, payload_setTable, if_pos ⟨rfl, isLive_of_table? found⟩]

theorem table?_setTable_of_ne {table other : Value} {content : HashTable}
    (different : other ≠ table) :
    (heap.setTable table content).table? other = heap.table? other :=
  table?_setPayload_of_ne _ different

theorem payload_setTable_of_ne {table other : Value} {content : HashTable}
    (different : other ≠ table) :
    (heap.setTable table content).payload other = heap.payload other := by
  rw [payload_setTable, if_neg fun both => different both.1]

/-- A table may get other buckets if the new ones are new to the heap as well. -/
theorem Keeps.setTable {free : Set Value} (keeps : Keeps free heap heap') {table : Value}
    {content content' : HashTable} (found : heap'.table? table = some content)
    (written : table ∈ free)
    (buckets : ∀ {bucket}, heap.Issued bucket → bucket ∈ content'.buckets → bucket ≠ .null →
      heap.HasBucket table bucket) :
    Keeps free heap (heap'.setTable table content') where
  hashBuckets := by
    rw [setTable_eq_setPayload, Heap.setPayload, config_modifyCell, keeps.hashBuckets]
  issued := fun issued => (issued_setPayload _ _ _).mpr (keeps.issued issued)
  live := fun issued => (isLive_setPayload _ _ _).trans (keeps.live issued)
  kind := fun issued => by
    rw [setTable_eq_setPayload, kind_setPayload (by rw [kind_of_table? found]; rfl),
      keeps.kind issued]
  payload := fun {value} issued scalar => by
    rw [payload_setTable_of_ne, keeps.payload issued scalar]
    rintro rfl
    have isHash := kind_of_table? found
    rw [keeps.kind issued] at isHash
    have single := scalar written
    rw [isHash] at single
    contradiction
  bucket := fun {other value} issued has => by
    obtain ⟨present, otherContent, otherFound, member⟩ := has
    by_cases same : other = table
    · subst same
      rw [table?_setTable found] at otherFound
      obtain rfl := Option.some.inj otherFound
      exact buckets issued member present
    · rw [table?_setTable_of_ne same] at otherFound
      exact keeps.bucket issued ⟨present, otherContent, otherFound, member⟩

theorem Sound.setTable (sound : heap.Sound held) {table : Value} {content content' : HashTable}
    (found : heap.table? table = some content)
    (accounts : held + ↑content.buckets = held' + ↑content'.buckets)
    (durable : ∀ bucket ∈ content'.buckets, bucket ∈ content.buckets ∨ bucket.isScratch = false)
    (owns : heap.OwnsBuckets table content') : (heap.setTable table content').Sound held' := by
  have children := children_of_table? found
  refine sound.setPayload (isLive_of_table? found) (by rw [kind_of_table? found]; rfl) rfl
    (by rw [children]; exact accounts) (by rw [children]; exact durable) ?_
  intro _ isHash
  exact Payload.hash.inj isHash ▸ owns

/-- Counting the pairs of a table anew. -/
theorem Sound.recount (sound : heap.Sound held) {table : Value} {content : HashTable}
    (found : heap.table? table = some content) (pairs : Nat) :
    (heap.setTable table { content with pairs }).Sound held := by
  have owns := sound.tables found
  exact sound.setTable found rfl (fun _ => .inl) ⟨owns.array, owns.distinct, owns.alone⟩

theorem Keeps.recount {free : Set Value} (keeps : Keeps free heap heap') {table : Value}
    {content : HashTable} (found : heap'.table? table = some content)
    (written : table ∈ free) (pairs : Nat) :
    Keeps free heap (heap'.setTable table { content with pairs }) :=
  keeps.setTable found written fun issued member present =>
    keeps.bucket issued ⟨present, content, found, member⟩

/-! ## Preparing a bucket -/

/-- What an operation on a hash may write is no bucket of another. -/
theorem Sound.notMem_tableCells (sound : heap.Sound held) {table other bucket : Value}
    {content otherContent : HashTable} (found : heap.table? table = some content)
    (different : other ≠ table) (otherFound : heap.table? other = some otherContent)
    (member : bucket ∈ otherContent.buckets) (present : bucket ≠ .null) :
    bucket ∉ heap.tableCells table := by
  rintro (isTable | isBucket)
  · exact sound.bucket_ne_table otherFound member present found isTable
  · rw [children_of_table? found] at isBucket
    exact sound.bucket_ne found otherFound different isBucket member present rfl

/-- If one table is in order and the others were not written, all are in order. -/
theorem Keeps.tablesOrdered {free : Set Value} (keeps : Keeps free heap heap')
    (sound : heap.Sound held) {table : Value} {content content' : HashTable}
    (found : heap.table? table = some content) (found' : heap'.table? table = some content')
    (covered : ∀ {value}, heap.Issued value → value ∈ free → value ∈ heap.tableCells table)
    (others : ∀ {other otherContent}, other ≠ table → heap'.table? other = some otherContent →
      heap.table? other = some otherContent)
    (ordered : heap.TablesOrdered) (inOrder : heap'.OrderedTable content') :
    heap'.TablesOrdered := by
  intro other otherContent otherFound
  by_cases same : other = table
  · subst same
    rw [found'] at otherFound
    obtain rfl := Option.some.inj otherFound
    exact inOrder
  · have before := others same otherFound
    exact keeps.orderedTable sound before (ordered before) fun {bucket} member present written =>
      sound.notMem_tableCells found same before member present
        (covered (sound.issued_bucket before member) written)

/-- Tables that were not written go on to count their pairs. -/
theorem Keeps.talliedBesides {free : Set Value} (keeps : Keeps free heap heap')
    (sound : heap.Sound held) {table : Value} {content : HashTable}
    (found : heap.table? table = some content)
    (covered : ∀ {value}, heap.Issued value → value ∈ free → value ∈ heap.tableCells table)
    (others : ∀ {other otherContent}, other ≠ table → heap'.table? other = some otherContent →
      heap.table? other = some otherContent)
    (tallied : heap.TalliedOutside {table}) : heap'.TalliedOutside {table} :=
  keeps.talliedOutside sound (fun different otherFound => .inr (others different otherFound))
    (fun different before member present written =>
      sound.notMem_tableCells found different before member present
        (covered (sound.issued_bucket before member) written)) tallied

theorem TablesTallied.outside (tallied : heap.TablesTallied) (outside : Set Value) :
    heap.TalliedOutside outside :=
  fun _ _ _ found => tallied (Set.notMem_empty _) found

/-- If one table counts its pairs and the others do, all do. -/
theorem TalliedOutside.complete {table : Value} {content : HashTable}
    (others : heap.TalliedOutside {table}) (found : heap.table? table = some content)
    (tallied : heap.TalliedTable content) : heap.TablesTallied := by
  intro other otherContent _ otherFound
  by_cases same : other = table
  · subst same
    rw [found] at otherFound
    exact Option.some.inj otherFound ▸ tallied
  · exact others same otherFound

theorem eq_replicate_of_allocatedBuckets {content : HashTable} {buckets : List Value}
    (done : heap.allocatedBuckets content = .ok buckets) :
    content.buckets ≠ [] ∧ buckets = content.buckets ∨
      content.buckets = [] ∧ buckets = List.replicate (max heap.config.hashBuckets 1) .null := by
  unfold allocatedBuckets at done
  split at done
  next empty =>
    refine .inr ⟨List.isEmpty_iff.mp empty, ?_⟩
    simpa using (padTo_eq_ok_iff.mp done).2
  next nonempty =>
    exact .inl ⟨fun empty => nonempty (by rw [empty]; rfl), (Except.ok.inj done).symm⟩

theorem setTable_self {table : Value} {content : HashTable}
    (found : heap.table? table = some content) : heap.setTable table content = heap := by
  refine modifyCell_of_same fun cell cellFound => ?_
  rw [table?_eq_some_iff, payload_of_cell? cellFound] at found
  rw [← found]

/-- The buckets are allocated.  No pair is touched. -/
theorem Step.allocate (sound : heap.Sound held) {table : Value} {content : HashTable}
    {buckets : List Value} (found : heap.table? table = some content)
    (done : heap.allocatedBuckets content = .ok buckets) :
    Step {table} True heap (heap.setTable table { content with buckets }) held ∧
      (heap.setTable table { content with buckets }).entries table = heap.entries table ∧
      (heap.OrderedTable content →
        (heap.setTable table { content with buckets }).OrderedTable { content with buckets }) ∧
      buckets ≠ [] := by
  rcases eq_replicate_of_allocatedBuckets done with ⟨present, rfl⟩ | ⟨empty, rfl⟩
  · rw [setTable_self found]
    exact ⟨.refl _ _ sound, rfl, id, present⟩
  · generalize count : max heap.config.hashBuckets 1 = slots
    have absent : ∀ {bucket}, bucket ∈ List.replicate slots Value.null → bucket = .null :=
      fun member => List.eq_of_mem_replicate member
    have found' :
        (heap.setTable table { content with buckets := List.replicate slots .null }).table? table =
          some { content with buckets := List.replicate slots .null } :=
      table?_setTable found
    have keeps : Keeps {table} heap
        (heap.setTable table { content with buckets := List.replicate slots .null }) :=
      (Keeps.refl _ heap).setTable found rfl fun _ member present =>
        absurd (absent member) present
    have noEntries : (heap.setTable table
        { content with buckets := List.replicate slots .null }).entries table = [] := by
      rw [entries_eq_flatMap found', List.flatMap_eq_nil_iff]
      intro bucket member
      rw [absent member, bucketEntries_null]
    have noPairs : ∀ heap : Heap σ,
        ((List.replicate slots Value.null).flatMap heap.bucketPairs).length = 0 := by
      intro heap
      rw [List.length_eq_zero_iff, List.flatMap_eq_nil_iff]
      intro bucket member
      rw [absent member]
      rfl
    have inOrder : heap.OrderedTable content → (heap.setTable table
        { content with buckets := List.replicate slots .null }).OrderedTable
          { content with buckets := List.replicate slots .null } := by
      intro ordered
      refine ⟨.inr ?_, fun place => .inl (absent (List.mem_of_getElem? place)), ?_⟩
      · rw [keeps.hashBuckets, count, List.length_replicate]
      · have pairs := ordered.pairs
        rw [empty] at pairs
        exact pairs.trans (noPairs _).symm
    have others : ∀ {other otherContent}, other ≠ table →
        (heap.setTable table { content with buckets := List.replicate slots .null }).table? other =
          some otherContent → heap.table? other = some otherContent :=
      fun different otherFound => by rwa [table?_setTable_of_ne different] at otherFound
    refine ⟨⟨?_, keeps, fun _ ordered => ?_, fun _ tallied => ?_⟩, ?_, inOrder, ?_⟩
    · refine (sound.add_nulls slots).setTable found (by rw [empty]; exact add_zero _)
        (fun bucket member => .inr (by rw [absent member]; rfl)) ?_
      exact ⟨fun member => .inl (absent member),
        fun first _ present => absurd (absent (List.mem_of_getElem? first)) present,
        fun _ _ member _ => absent member⟩
    · exact keeps.tablesOrdered sound found found' (fun _ written => .inl written) others
        ordered (inOrder (ordered found))
    · refine (keeps.talliedBesides sound found (fun _ written => .inl written) others
        (tallied.outside _)).complete found' ?_
      have pairs := tallied (Set.notMem_empty _) found
      rw [TalliedTable, empty] at pairs
      exact pairs.trans (noPairs _).symm
    · rw [noEntries, entries_eq_flatMap found, empty]
      rfl
    · intro none
      have length := congrArg List.length none
      rw [List.length_replicate, List.length_nil] at length
      omega

/-- What holds once the array of a bucket is there: it is one of the old buckets or new. -/
structure Prepared (heap heap' : Heap σ) (held : Multiset Value) (table : Value)
    (content : HashTable) (slot : Nat) (bucket : Value) : Prop where
  step : Step {table} True heap heap' held
  entries : heap.OrderedTable content → heap'.entries table = heap.entries table
  place : ∃ content' items, heap'.Place table content' slot bucket items ∧
    content'.buckets.length = content.buckets.length ∧
      (heap.OrderedTable content → heap'.OrderedTable content')
  origin : bucket ∈ content.buckets ∨ ¬heap.Issued bucket

/-- An empty array that was just made and is held once. -/
structure NewArray (heap ready : Heap σ) (held : Multiset Value) (bucket : Value) : Prop where
  step : Step ∅ True heap ready (bucket ::ₘ held)
  fresh : ¬heap.Issued bucket
  durable : bucket.isScratch = false
  payload : ready.payload bucket = .array []
  tables : ∀ {table content}, ready.table? table = some content →
    heap.table? table = some content

theorem newArray (sound : heap.Sound held) :
    NewArray heap ((heap.create (.array [])).2.retain (heap.create (.array [])).1) held
      (heap.create (.array [])).1 := by
  have consistent := sound.toConsistent
  have making : Step ∅ True heap (heap.create (.array [])).2 held :=
    .createSingle sound rfl (by simp)
  have payload : (heap.create (.array [])).2.payload (heap.create (.array [])).1 =
      .array [] := payload_create_self consistent _
  refine ⟨making.andThen (Step.retain making.sound (issued_create sound _)),
    not_issued_create consistent _, isScratch_create _, (payload_retain _ _ _).trans payload,
    fun {table content} found => ?_⟩
  rw [table?_eq_some_iff, payload_retain, ← table?_eq_some_iff] at found
  exact (table?_create consistent found).resolve_left (by simp)

/-- A table with another bucket in one slot. -/
abbrev withBucket (content : HashTable) (slot : Nat) (bucket : Value) : HashTable :=
  { content with buckets := content.buckets.set slot bucket }

namespace NewArray

variable {ready : Heap σ} {table bucket : Value} {content : HashTable} {slot : Nat}

theorem table? (new : NewArray heap ready held bucket) (sound : heap.Sound held)
    (found : heap.table? table = some content) : ready.table? table = some content := by
  rw [table?_eq_some_iff, new.step.keeps.payload
    (sound.toConsistent.issued (isLive_of_table? found)) fun none => none.elim,
    ← table?_eq_some_iff]
  exact found

theorem ne_table (new : NewArray heap ready held bucket) (sound : heap.Sound held)
    (found : heap.table? table = some content) : bucket ≠ table := by
  rintro rfl
  exact new.fresh (sound.toConsistent.issued (isLive_of_table? found))

/-- No cell of the heap before referred to the new array. -/
theorem not_mem_buckets (new : NewArray heap ready held bucket) (sound : heap.Sound held)
    (found : heap.table? table = some content) : bucket ∉ content.buckets := fun member =>
  new.fresh (sound.issued_bucket found member)

theorem payload_placed (new : NewArray heap ready held bucket) (sound : heap.Sound held)
    (found : heap.table? table = some content) (content' : HashTable) :
    (ready.setTable table content').payload bucket = .array [] := by
  rw [payload_setTable_of_ne (new.ne_table sound found), new.payload]

theorem keeps (new : NewArray heap ready held bucket) (sound : heap.Sound held)
    (found : heap.table? table = some content) :
    Keeps {table} heap (ready.setTable table (withBucket content slot bucket)) := by
  refine (new.step.keeps.mono fun _ _ none => none.elim).setTable (new.table? sound found) rfl
    fun {other} issued member present => ?_
  rcases List.mem_or_eq_of_mem_set member with old | rfl
  · exact ⟨present, content, found, old⟩
  · exact absurd issued new.fresh

theorem ownsBuckets (new : NewArray heap ready held bucket) (sound : heap.Sound held)
    (found : heap.table? table = some content) (inside : slot < content.buckets.length) :
    ready.OwnsBuckets table (withBucket content slot bucket) := by
  have owns := new.step.sound.tables (new.table? sound found)
  have outside := new.not_mem_buckets sound found
  refine ⟨fun member => ?_, fun {other first second} firstPlace secondPlace present => ?_,
    fun {other third thirdContent} thirdDifferent thirdFound member thirdMember => ?_⟩
  · rcases List.mem_or_eq_of_mem_set member with old | rfl
    · exact owns.array old
    · refine .inr ?_
      rw [kind, new.payload]
      rfl
  · rw [List.getElem?_set] at firstPlace secondPlace
    split at firstPlace <;> split at secondPlace
    · omega
    · obtain rfl : bucket = other := by simpa [inside] using firstPlace
      exact absurd (List.mem_of_getElem? secondPlace) outside
    · obtain rfl : bucket = other := by simpa [inside] using secondPlace
      exact absurd (List.mem_of_getElem? firstPlace) outside
    · exact owns.distinct firstPlace secondPlace present
  · rcases List.mem_or_eq_of_mem_set member with old | rfl
    · exact owns.alone thirdDifferent thirdFound old thirdMember
    · exact absurd thirdMember (new.not_mem_buckets sound (new.tables thirdFound))

/-- The reference that held the new array is the one its table has now, and the absent value
that was in its slot is nothing to count. -/
theorem sound_placed (new : NewArray heap ready held bucket) (sound : heap.Sound held)
    (found : heap.table? table = some content) (place : content.buckets[slot]? = some .null) :
    (ready.setTable table (withBucket content slot bucket)).Sound held := by
  obtain ⟨inside, isNull⟩ := List.getElem?_eq_some_iff.mp place
  have moved := cons_coe_set inside bucket
  rw [isNull] at moved
  have last : (ready.setTable table (withBucket content slot bucket)).Sound (.null ::ₘ held) := by
    refine new.step.sound.setTable (new.table? sound found) ?_ (fun other member => ?_)
      (new.ownsBuckets sound found inside)
    · rw [Multiset.cons_add, Multiset.cons_add, ← Multiset.add_cons, ← Multiset.add_cons, moved]
    · exact (List.mem_or_eq_of_mem_set member).imp_right fun isNew => by
        rw [isNew, new.durable]
  exact last.release

/-- The other buckets hold what they held, and in place of an absent one there is an empty one. -/
theorem sameBuckets (new : NewArray heap ready held bucket) (sound : heap.Sound held)
    (found : heap.table? table = some content) (place : content.buckets[slot]? = some .null) :
    List.Forall₂ (SameBucket heap (ready.setTable table (withBucket content slot bucket)))
      content.buckets (withBucket content slot bucket).buckets := by
  have keeps : Keeps {table} heap (ready.setTable table (withBucket content slot bucket)) :=
    new.keeps sound found
  refine List.forall₂_iff_get.mpr ⟨List.length_set.symm, fun other before after => ?_⟩
  simp only [List.get_eq_getElem, List.getElem_set]
  split
  next same =>
    subst same
    exact .inl ⟨(List.getElem?_eq_some_iff.mp place).2, .inr (new.payload_placed sound found _)⟩
  next =>
    have member : content.buckets[other] ∈ content.buckets := List.getElem_mem _
    exact keeps.sameBucket sound found member
      fun present => sound.bucket_ne_table found member present found

theorem orderedTable (new : NewArray heap ready held bucket) (sound : heap.Sound held)
    (found : heap.table? table = some content) (place : content.buckets[slot]? = some .null)
    (ordered : heap.OrderedTable content) :
    (ready.setTable table (withBucket content slot bucket)).OrderedTable
      (withBucket content slot bucket) :=
  ordered.transport (new.keeps sound found).hashBuckets rfl (new.sameBuckets sound found place)

theorem entries (new : NewArray heap ready held bucket) (sound : heap.Sound held)
    (found : heap.table? table = some content) (place : content.buckets[slot]? = some .null)
    (ordered : heap.OrderedTable content) :
    (ready.setTable table (withBucket content slot bucket)).entries table =
      heap.entries table := by
  obtain ⟨inside, isNull⟩ := List.getElem?_eq_some_iff.mp place
  have foundLast : (ready.setTable table (withBucket content slot bucket)).table? table =
      some (withBucket content slot bucket) := table?_setTable (new.table? sound found)
  have same : content.buckets.map
      (ready.setTable table (withBucket content slot bucket)).bucketEntries =
        content.buckets.map heap.bucketEntries :=
    List.map_congr_left fun other member => (new.keeps sound found).bucketEntries sound ordered
      found member fun present => sound.bucket_ne_table found member present found
  have within : slot < (content.buckets.map heap.bucketEntries).length := by simpa using inside
  have here : (content.buckets.map heap.bucketEntries)[slot] = [] := by
    rw [List.getElem_map, isNull, bucketEntries_null]
  have back : (content.buckets.map heap.bucketEntries).set slot [] =
      content.buckets.map heap.bucketEntries := by
    conv => lhs; rw [← here]
    exact List.set_getElem_self _
  rw [entries_eq_flatMap foundLast, entries_eq_flatMap found, List.flatMap_def,
    List.flatMap_def, List.map_set, same,
    bucketEntries_of_payload (new.payload_placed sound found _)]
  exact congrArg List.flatten back

/-- An absent bucket gets an empty array of its own. -/
theorem prepared (new : NewArray heap ready held bucket) (sound : heap.Sound held)
    (found : heap.table? table = some content) (place : content.buckets[slot]? = some .null) :
    Prepared heap (ready.setTable table (withBucket content slot bucket)) held table content
      slot bucket := by
  have foundLast : (ready.setTable table (withBucket content slot bucket)).table? table =
      some (withBucket content slot bucket) := table?_setTable (new.table? sound found)
  have inside := (List.getElem?_eq_some_iff.mp place).1
  have inOrder := new.orderedTable sound found place
  have others : ∀ {other otherContent}, other ≠ table →
      (ready.setTable table (withBucket content slot bucket)).table? other = some otherContent →
        heap.table? other = some otherContent := by
    intro other otherContent different otherFound
    rw [table?_setTable_of_ne different] at otherFound
    exact new.tables otherFound
  refine ⟨⟨new.sound_placed sound found place, new.keeps sound found, fun _ ordered => ?_,
    fun _ tallied => ?_⟩, new.entries sound found place, ⟨_, [], ⟨foundLast,
      List.getElem?_set_self inside, new.payload_placed sound found _⟩, List.length_set, inOrder⟩,
    .inr new.fresh⟩
  · exact (new.keeps sound found).tablesOrdered sound found foundLast
      (fun _ written => .inl written) others ordered (inOrder (ordered found))
  · have tally : heap.TalliedTable content := tallied (Set.notMem_empty _) found
    exact ((new.keeps sound found).talliedBesides sound found (fun _ written => .inl written)
      others (tallied.outside _)).complete foundLast
        (tally.transport rfl (new.sameBuckets sound found place))

end NewArray

theorem prepared_bucketArray (sound : heap.Sound held) {table : Value} {content : HashTable}
    {slot : Nat} (found : heap.table? table = some content)
    (inside : slot < content.buckets.length) :
    Prepared heap (heap.bucketArray table content slot).2 held table content slot
      (heap.bucketArray table content slot).1 := by
  have place := List.getElem?_eq_getElem inside
  have bucket : content.buckets[slot]?.getD .null = content.buckets[slot] := by
    rw [place, Option.getD_some]
  have member : content.buckets[slot] ∈ content.buckets := List.getElem_mem inside
  simp only [bucketArray, bucket]
  rcases sound.bucket_payload found member with absent | ⟨items, payload⟩
  · rw [absent] at place ⊢
    exact (newArray sound).prepared sound found place
  · have itemsFound : heap.items? content.buckets[slot] = some items := by
      rw [items?, payload]
      rfl
    rw [itemsFound]
    exact ⟨.refl _ _ sound, fun _ => rfl, ⟨content, items, ⟨found, place, payload⟩, rfl, id⟩,
      .inl member⟩

/-! ## Storing a pair -/

/-- Everything that storing under a key does before it stores the value.  Answers the bucket
and the place of the key in it. -/
def openKey (heap : Heap σ) (table key : Value) :
    Except Exhausted (Option (Value × Nat) × Heap σ) :=
  let text := heap.text key
  match heap.table? table with
  | none => .ok (none, heap)
  | some content => do
      let buckets ← heap.allocatedBuckets content
      let content := { content with buckets }
      let heap := heap.setTable table content
      let (bucket, heap) :=
        heap.bucketArray table content (Text.bucketOf text buckets.length)
      match heap.items? bucket with
      | none => return (none, heap)
      | some items =>
          match heap.seekKey items text with
          | .found index => return (some (bucket, index), heap)
          | .missing index => do
              let (_, heap) ← heap.expandItems bucket index 2
              let (_, heap) ← heap.setItem bucket key index
              return (some (bucket, index), heap.countPair table)

/-- Storing a value where `openKey` says. -/
theorem setKey_eq_openKey (table key value : Value) :
    heap.setKey table key value = heap.openKey table key >>= fun opened =>
      match opened.1 with
      | none => .ok (.null, opened.2)
      | some (bucket, index) => opened.2.setItem bucket value (index + 1 : Nat) := by
  unfold setKey openKey
  cases heap.table? table with
  | none => rfl
  | some content =>
      simp only [bind_assoc]
      refine bind_congr fun buckets => ?_
      generalize (heap.setTable table { content with buckets }).bucketArray table
        { content with buckets } (Text.bucketOf (heap.text key) buckets.length) = prepared
      obtain ⟨bucket, ready⟩ := prepared
      simp only
      cases ready.items? bucket with
      | none => rfl
      | some items =>
          simp only
          cases ready.seekKey items (heap.text key) with
          | found index => rfl
          | missing index =>
              simp only [bind_assoc]
              rfl

/-- The buckets are there, and so is the array of the bucket for a text. -/
structure Ready (heap ready : Heap σ) (held : Multiset Value) (table : Value) (text : String)
    (bucket : Value) : Prop where
  step : Step {table} True heap ready held
  origin : heap.Issued bucket → bucket ∈ heap.children table
  place : ∃ content items,
    ready.Place table content (Text.bucketOf text content.buckets.length) bucket items ∧
      (heap.InOrder table → ready.OrderedTable content ∧ ready.entries table = heap.entries table)

theorem ready_bucketArray (sound : heap.Sound held) {table bucket : Value} {text : String}
    {content : HashTable} {buckets : List Value} {ready : Heap σ}
    (found : heap.table? table = some content)
    (allocated : heap.allocatedBuckets content = .ok buckets)
    (made : (heap.setTable table { content with buckets }).bucketArray table
      { content with buckets } (Text.bucketOf text buckets.length) = (bucket, ready)) :
    Ready heap ready held table text bucket := by
  obtain ⟨allocating, entries, inOrder, nonempty⟩ := Step.allocate sound found allocated
  have foundAllocated : (heap.setTable table { content with buckets }).table? table =
      some { content with buckets } := table?_setTable found
  have prepared := prepared_bucketArray allocating.sound foundAllocated
    (Text.bucketOf_lt text (List.length_pos_iff.mpr nonempty))
  rw [made] at prepared
  obtain ⟨content', items, here, length, inOrder'⟩ := prepared.place
  simp only at here length
  rw [← length] at here
  refine ⟨allocating.andThen prepared.step, fun issued => ?_, content', items, here,
    fun ordered => ?_⟩
  · rcases prepared.origin with old | fresh
    · rw [children_of_table? found]
      rcases eq_replicate_of_allocatedBuckets allocated with ⟨-, rfl⟩ | ⟨-, rfl⟩
      · exact old
      · exact absurd (List.eq_of_mem_replicate old) here.present
    · exact absurd (allocating.keeps.issued issued) fresh
  · exact ⟨inOrder' (inOrder (ordered found)),
      (prepared.entries (inOrder (ordered found))).trans entries⟩

/-! ## Keys from which the table is not reached -/

/-- A key that shows no hash does not show one when a hash is prepared for it. -/
theorem Keeps.below (keeps : Keeps {table} heap heap') (sound : heap.Sound held) {value : Value}
    (issued : heap.Issued value) (below : heap'.Below value table) : heap.Below value table := by
  revert issued
  induction below using Relation.ReflTransGen.head_induction_on with
  | refl => exact fun _ => .refl
  | @head holder child member _ inductionHypothesis =>
      intro issued
      by_cases same : holder = table
      · exact same ▸ .refl
      · rw [children, keeps.payload issued fun written => absurd written same, ← children]
          at member
        exact .head member (inductionHypothesis (sound.issued_child member))

/-- A gap shows nothing. -/
theorem below_of_gap {bucket value : Value} {before after : List Value} (present : table ≠ .null)
    (gap : heap' = heap.setChildren bucket (before ++ .null :: .null :: after))
    (payload : heap.payload bucket = .array (before ++ after)) (below : heap'.Below value table) :
    heap.Below value table := by
  have shown : ∀ {holder child}, child ∈ heap'.children holder →
      child ∈ heap.children holder ∨ child = .null := by
    intro holder child member
    rw [gap, setChildren_eq_setPayload, children, payload_setPayload] at member
    split at member
    next same =>
      rw [payload] at member
      have inside : child ∈ before ++ .null :: .null :: after := member
      rw [same.1, children, payload]
      simp only [List.mem_append, List.mem_cons] at inside
      rcases inside with front | absent | absent | back
      · exact .inl (List.mem_append_left _ front)
      · exact .inr absent
      · exact .inr absent
      · exact .inl (List.mem_append_right _ back)
    next => exact .inl member
  induction below using Relation.ReflTransGen.head_induction_on with
  | refl => exact .refl
  | head member rest inductionHypothesis =>
      rcases shown member with old | rfl
      · exact .head old inductionHypothesis
      · rcases Relation.ReflTransGen.cases_head rest with absent | ⟨child, none, -⟩
        · exact absurd absent.symm present
        · rw [children] at none
          contradiction

/-- No scratch value whose text is settled refers to anything. -/
theorem Sound.not_below_of_fixed (sound : heap.Sound held) {key table : Value}
    (fixed : (heap.kind key).hasFixedText = true) (scratch : key.isScratch = true)
    (isHash : heap.kind table = .hash) : ¬heap.Below key table := by
  intro below
  rcases Relation.ReflTransGen.cases_head below with rfl | ⟨child, member, -⟩
  · rw [isHash] at fixed
    contradiction
  · have live := isLive_of_mem_children member
    rcases sound.pool scratch live with isPlain | isArray
    · rw [children] at member
      cases content : heap.payload key <;> simp_all [Payload.isPlainData, Payload.children]
    · rw [isArray] at fixed
      contradiction

/-- The heap in which the value is about to be stored under `text`: the pair is there, and it
has the value it had before, or the absent value if it is new. -/
structure Opened (heap opened : Heap σ) (held : Multiset Value) (table key bucket : Value)
    (index : Nat) : Prop where
  step : Step (heap.tableCells table) ((heap.kind key).hasFixedText = true) heap opened held
  isHash : heap.kind table = .hash
  origin : heap.Issued bucket → bucket ∈ heap.children table
  room : ∃ content slot items, opened.Place table content slot bucket items ∧
    index + 1 < items.length
  tallied : (key.isScratch = true → ¬heap.Below key table) → heap.TablesTallied →
    opened.TablesTallied
  place : (heap.kind key).hasFixedText = true →
    heap.InOrder table → ∃ content before stored old after front back,
      opened.Place table content (Text.bucketOf (heap.text key) content.buckets.length) bucket
        (before ++ stored :: old :: after) ∧
      before.length = index ∧ index % 2 = 0 ∧ opened.OrderedTable content ∧
      opened.text stored = heap.text key ∧
      opened.entries table = front ++ (heap.text key, old) :: back ∧
      (heap.entries table = front ++ (heap.text key, old) :: back ∨
        old = .null ∧ heap.entries table = front ++ back)

/-- A text that is present: nothing is left to be done before its value is stored. -/
theorem opened_of_found {table key bucket : Value} {ready : Heap σ}
    {items : List Value} {index : Nat} (isHash : heap.kind table = .hash)
    (isReady : Ready heap ready held table (heap.text key) bucket)
    (itemsFound : ready.items? bucket = some items)
    (sought : ready.seekKey items (heap.text key) = .found index) :
    Opened heap ready held table key bucket index where
  step := isReady.step.mono (fun _ _ written => .inl written) (fun _ => trivial)
  isHash := isHash
  origin := isReady.origin
  room := by
    obtain ⟨content, items', here, -⟩ := isReady.place
    rw [items?, here.payload] at itemsFound
    obtain rfl := Option.some.inj itemsFound
    exact ⟨content, _, items', here, Records.lt_length_of_seek_found sought⟩
  tallied := fun _ => isReady.step.tallies trivial
  place := fun fixed inOrder => by
    obtain ⟨content, items', here, ordering⟩ := isReady.place
    obtain ⟨ordered, entries⟩ := ordering inOrder
    obtain rfl : items' = items := by
      rw [items?, here.payload] at itemsFound
      exact Option.some.inj itemsFound
    have cut := entries_cut here.found here.place
    rcases (here.ordered ordered).seekKey (heap.text key) with
      ⟨before, stored, old, after, answer, rfl, even, isText⟩ | ⟨before, after, answer, -⟩
    · rw [sought] at answer
      obtain rfl := Seek.found.inj answer
      rw [bucketEntries_of_payload here.payload, named_pairUp_cons even, isText,
        List.append_assoc, List.cons_append, ← List.append_assoc] at cut
      exact ⟨content, before, stored, old, after, _, _, here, rfl, even, ordered, isText, cut,
        .inl (entries ▸ cut)⟩
    · rw [sought] at answer
      contradiction

/-! The pair of a new text is made by three writes: a gap is opened in the bucket, the key is
stored in it, and the pair is counted. -/

section NewPair

variable {table key bucket answer : Value} {content : HashTable} {slot index : Nat}
  {items : List Value} {grown : Bool} {ready expanded stored : Heap σ}

theorem countPair_of_found (found : heap.table? table = some content) :
    heap.countPair table =
      heap.setTable table { content with pairs := content.pairs + 1 } := by
  rw [countPair, found]

/-- The first two writes leave the table as it was. -/
theorem storedKey (sound : ready.Sound held) (issued : ready.Issued key)
    (here : ready.Place table content slot bucket items)
    (expanding : ready.expandItems bucket index 2 = .ok (grown, expanded))
    (storing : expanded.setItem bucket key index = .ok (answer, stored)) :
    stored.Sound held ∧ Keeps {bucket} ready stored ∧ stored.table? table = some content := by
  have expandStep := Step.expandItems sound expanding
  have storeStep := Step.setItem expandStep.sound (expandStep.keeps.issued issued) storing
  have keeps : Keeps {bucket} ready stored :=
    expandStep.keeps.trans storeStep.keeps fun _ _ => id
  have different : bucket ≠ table := sound.bucket_ne_table here.found
    (List.mem_of_getElem? here.place) here.present here.found
  exact ⟨storeStep.sound, keeps,
    keeps.table? sound here.found fun written => different written.symm⟩

/-- A gap is opened and the key is stored in it, at a place within the bucket. -/
structure PairStored (ready expanded stored : Heap σ) (held : Multiset Value)
    (table key bucket answer : Value) (content : HashTable) (slot : Nat)
    (before after : List Value) : Prop where
  sound : (stored.countPair table).Sound held
  gap : expanded = ready.setChildren bucket (before ++ .null :: .null :: after)
  expanding : Step {bucket} (¬ready.IsBucket bucket) ready expanded held
  issued : expanded.Issued key
  storing : Stored expanded stored held bucket key answer (before ++ .null :: .null :: after)
    before.length
  owned : (expanded.own key).2.table? table = some content
  others : ∀ {other}, other ≠ table →
    (stored.countPair table).table? other = (expanded.own key).2.table? other
  place : (stored.countPair table).Place table { content with pairs := content.pairs + 1 } slot
    bucket (before ++ (expanded.own key).1 :: .null :: after)
  keeps : Keeps {table, bucket} ready (stored.countPair table)
  keepsOwned : Keeps {table, bucket} (expanded.own key).2 (stored.countPair table)

theorem pair_stored {before after : List Value} (sound : ready.Sound held)
    (issued : ready.Issued key) (here : ready.Place table content slot bucket (before ++ after))
    (expanding : ready.expandItems bucket before.length 2 = .ok (grown, expanded))
    (storing : expanded.setItem bucket key before.length = .ok (answer, stored)) :
    PairStored ready expanded stored held table key bucket answer content slot before after := by
  have expandStep := Step.expandItems sound expanding
  have issuedExpanded := expandStep.keeps.issued issued
  obtain ⟨storedSound, keeps, storedFound⟩ := storedKey sound issued here expanding storing
  have different : bucket ≠ table := sound.bucket_ne_table here.found
    (List.mem_of_getElem? here.place) here.present here.found
  have gap := expandItems_of_payload here.payload expanding
  have payload : expanded.payload bucket = .array (before ++ .null :: .null :: after) := by
    rw [gap, setChildren_eq_setPayload, payload_setPayload,
      if_pos ⟨rfl, isLive_of_payload_ne (by rw [here.payload]; simp)⟩, here.payload]
    rfl
  have storing' := stored_setItem expandStep.sound payload (by simp) issuedExpanded storing
  have storedPayload := storing'.payload
  rw [List.set_append_right _ _ le_rfl, Nat.sub_self, List.set_cons_zero] at storedPayload
  have counting := countPair_of_found storedFound
  refine ⟨?_, gap, expandStep, issuedExpanded, storing', ?_, fun different => ?_, ?_, ?_, ?_⟩
  · exact counting ▸ storedSound.recount storedFound _
  · rw [← storing'.tables, storedFound]
  · rw [counting, table?_setTable_of_ne different, storing'.tables]
  · rw [counting]
    exact ⟨table?_setTable storedFound, here.place,
      by rw [payload_setTable_of_ne different, storedPayload]⟩
  · exact counting ▸ (keeps.mono fun _ _ written => .inr written).recount storedFound (.inl rfl) _
  · exact counting ▸ (storing'.replacing.keeps.mono fun _ _ written => .inr written).recount
      storedFound (.inl rfl) _

/-- What the three writes come to when the table is in order and the text of the key is
settled. -/
theorem pair_inserted (sound : ready.Sound held) (issued : ready.Issued key)
    (here : ready.Place table content slot bucket items) (ordered : ready.OrderedTable content)
    (fixed : (ready.kind key).hasFixedText = true)
    (placed : Text.bucketOf (ready.text key) content.buckets.length = slot)
    (sought : ready.seekKey items (ready.text key) = .missing index)
    (expanding : ready.expandItems bucket index 2 = .ok (grown, expanded))
    (storing : expanded.setItem bucket key index = .ok (answer, stored)) :
    ∃ before owned after front back,
      (stored.countPair table).Place table { content with pairs := content.pairs + 1 } slot
        bucket (before ++ owned :: .null :: after) ∧
      before.length = index ∧ index % 2 = 0 ∧
      (stored.countPair table).OrderedTable { content with pairs := content.pairs + 1 } ∧
      (stored.countPair table).text owned = ready.text key ∧
      (stored.countPair table).entries table = front ++ (ready.text key, .null) :: back ∧
      ready.entries table = front ++ back := by
  rcases (here.ordered ordered).seekKey (ready.text key) with
    ⟨before, held, old, after, answer, -⟩ | ⟨before, after, answer, rfl, even, less, more⟩
  · rw [sought] at answer
    contradiction
  rw [sought] at answer
  obtain rfl := Seek.missing.inj answer
  have pair := pair_stored sound issued here expanding storing
  have sameKey := (pair.expanding.keeps.sameKey issued).trans
    (pair.storing.owned.sameKey.trans (pair.keepsOwned.sameKey pair.storing.owned.issued))
  obtain ⟨fixedOwned, isText⟩ := sameKey fixed
  obtain ⟨orderedOpened, front, back, readyEntries, openedEntries⟩ := ordered.insert sound
    pair.keeps here pair.place even less more fixedOwned isText placed
  exact ⟨before, _, after, front, back, pair.place, rfl, even, orderedOpened, isText,
    openedEntries, readyEntries⟩

theorem exists_cut_at (within : index ≤ items.length) :
    ∃ before after, items = before ++ after ∧ before.length = index :=
  ⟨items.take index, items.drop index, (List.take_append_drop index items).symm,
    List.length_take_of_le within⟩

/-- The three writes keep all pairs counted, unless the key shows the table, which is copied with
a pair that is not counted yet. -/
theorem pair_tallied (sound : ready.Sound held) (issued : ready.Issued key)
    (here : ready.Place table content slot bucket items) (within : index ≤ items.length)
    (apart : key.isScratch = true → ¬ready.Below key table)
    (expanding : ready.expandItems bucket index 2 = .ok (grown, expanded))
    (storing : expanded.setItem bucket key index = .ok (answer, stored))
    (tallied : ready.TablesTallied) : (stored.countPair table).TablesTallied := by
  obtain ⟨before, after, rfl, rfl⟩ := exists_cut_at within
  have pair := pair_stored sound issued here expanding storing
  have gapTallied : expanded.TalliedOutside {table} := by
    refine pair.expanding.keeps.talliedBesides sound here.found (fun _ written => ?_)
      (fun _ found => by rwa [table?_expandItems expanding] at found) (tallied.outside _)
    exact .inr (here.mem_children (Set.mem_singleton_iff.mp written))
  have ownedTallied := gapTallied.own pair.expanding.sound pair.issued
      fun scratch other isTable => by
    obtain rfl := Set.mem_singleton_iff.mp isTable
    intro below
    refine apart scratch (below_of_gap ?_ pair.gap here.payload below)
    rintro rfl
    exact absurd here.found (by simp [table?, payload, Payload.table?])
  refine (pair.keepsOwned.talliedBesides pair.storing.owning.sound pair.owned
    (fun _ written => ?_) (fun different found => by rwa [pair.others different] at found)
    ownedTallied).complete pair.place.found ?_
  · exact written.imp_right fun isBucket => by
      rw [children_of_table? pair.owned, Set.mem_singleton_iff.mp isBucket]
      exact List.mem_of_getElem? here.place
  · refine TalliedTable.write sound pair.keeps (tallied (Set.notMem_empty _) here.found) here
      pair.place.payload ?_
    simp only [List.length_append, List.length_cons]
    omega

/-- The three writes touch the table and the bucket, and leave every other table in order. -/
theorem Step.countPair (sound : ready.Sound held) (issued : ready.Issued key)
    (here : ready.Place table content slot bucket items) (within : index ≤ items.length)
    (expanding : ready.expandItems bucket index 2 = .ok (grown, expanded))
    (storing : expanded.setItem bucket key index = .ok (answer, stored)) :
    Step {table, bucket} ((ready.kind key).hasFixedText = true ∧
      (stored.countPair table).OrderedTable { content with pairs := content.pairs + 1 })
      ready (stored.countPair table) held := by
  obtain ⟨before, after, rfl, rfl⟩ := exists_cut_at within
  have pair := pair_stored sound issued here expanding storing
  refine ⟨pair.sound, pair.keeps, fun ⟨fixed, inOrder⟩ ordered => ?_, fun ⟨fixed, _⟩ => ?_⟩
  · refine pair.keeps.tablesOrdered sound here.found pair.place.found
      (fun _ written => written.imp_right here.mem_children) (fun different found => ?_) ordered
      inOrder
    rw [pair.others different] at found
    rw [← table?_expandItems expanding]
    exact table?_own pair.expanding.sound (by rwa [pair.expanding.keeps.kind issued]) found
  · exact pair_tallied sound issued here within
      (fun scratch => sound.not_below_of_fixed fixed scratch (kind_of_table? here.found))
      expanding storing

end NewPair

/-- A text that is new: its pair is made first. -/
theorem opened_of_missing (beginning : heap.Sound held) {table key bucket : Value}
    {ready expanded stored : Heap σ} {items : List Value} {index : Nat} {grown : Bool}
    {answer : Value} (issued : heap.Issued key)
    (isHash : heap.kind table = .hash)
    (isReady : Ready heap ready held table (heap.text key) bucket)
    (itemsFound : ready.items? bucket = some items)
    (sought : ready.seekKey items (heap.text key) = .missing index)
    (expanding : ready.expandItems bucket index 2 = .ok (grown, expanded))
    (storing : expanded.setItem bucket key index = .ok (answer, stored)) :
    Opened heap (stored.countPair table) held table key bucket index := by
  obtain ⟨content, items', here, ordering⟩ := isReady.place
  obtain rfl : items' = items := by
    rw [items?, here.payload] at itemsFound
    exact Option.some.inj itemsFound
  have sound := isReady.step.sound
  have issuedReady := isReady.step.keeps.issued issued
  have within := Records.le_length_of_seek_missing sought
  have making := Step.countPair sound issuedReady here within expanding storing
  have inserting : (heap.kind key).hasFixedText = true → heap.InOrder table → _ :=
    fun fixed inOrder => by
      obtain ⟨fixedReady, sameText⟩ := isReady.step.keeps.sameKey issued fixed
      exact pair_inserted sound issuedReady here (ordering inOrder).1 fixedReady
        (by rw [sameText]) (by rwa [sameText]) expanding storing
  have tallied : (key.isScratch = true → ¬heap.Below key table) → heap.TablesTallied →
      (stored.countPair table).TablesTallied := by
    intro apart tallied
    refine pair_tallied sound issuedReady here within (fun scratch below => ?_) expanding storing
      (isReady.step.tallies trivial tallied)
    exact apart scratch (isReady.step.keeps.below beginning issued below)
  refine ⟨⟨making.sound, ?_, fun fixed inOrder => ?_, fun fixed => tallied fun scratch => ?_⟩,
    isHash, isReady.origin, ?_, tallied, fun fixed inOrder => ?_⟩
  · refine (isReady.step.keeps.mono fun _ _ isTable => .inl isTable).trans making.keeps
      fun valueIssued _ isWritten => ?_
    rcases isWritten with isTable | isBucket
    · exact .inl isTable
    · obtain rfl := Set.mem_singleton_iff.mp isBucket
      exact .inr (isReady.origin valueIssued)
  · obtain ⟨_, _, _, _, _, -, -, -, orderedOpened, -⟩ := inserting fixed inOrder
    exact making.tables ⟨(isReady.step.keeps.sameKey issued fixed).1, orderedOpened⟩
      (isReady.step.tables trivial inOrder)
  · exact beginning.not_below_of_fixed fixed scratch isHash
  · obtain ⟨before, after, rfl, rfl⟩ := exists_cut_at within
    refine ⟨_, _, _, (pair_stored sound issuedReady here expanding storing).place, ?_⟩
    simp only [List.length_append, List.length_cons]
    omega
  · obtain ⟨before, owned, after, front, back, there, length, even, orderedOpened, isText,
      openedEntries, entries⟩ := inserting fixed inOrder
    rw [(isReady.step.keeps.sameKey issued fixed).2] at isText openedEntries
    exact ⟨_, before, owned, .null, after, front, back, there, length, even, orderedOpened, isText,
      openedEntries, .inr ⟨rfl, (ordering inOrder).2 ▸ entries⟩⟩

theorem opened_openKey (sound : heap.Sound held) {table key : Value} {opened : Heap σ}
    {place : Option (Value × Nat)} (issued : heap.Issued key)
    (done : heap.openKey table key = .ok (place, opened)) :
    heap.table? table = none ∧ place = none ∧ opened = heap ∨
      ∃ bucket index, place = some (bucket, index) ∧
        Opened heap opened held table key bucket index := by
  unfold openKey at done
  split at done
  next absent =>
    obtain ⟨rfl, rfl⟩ := Prod.mk.inj (Except.ok.inj done)
    exact .inl ⟨absent, rfl, rfl⟩
  next content found =>
    obtain ⟨buckets, allocated, done⟩ := bind_eq_ok.mp done
    rcases made : (heap.setTable table { content with buckets }).bucketArray table
      { content with buckets } (Text.bucketOf (heap.text key) buckets.length) with ⟨bucket, ready⟩
    have isReady := ready_bucketArray sound found allocated made
    simp only [made] at done
    split at done
    next absent =>
      obtain ⟨_, items, here, -⟩ := isReady.place
      simp [items?, here.payload, Payload.items?] at absent
    next items itemsFound =>
      split at done
      next index sought =>
        obtain ⟨rfl, rfl⟩ := Prod.mk.inj (Except.ok.inj done)
        exact .inr ⟨bucket, index, rfl,
          opened_of_found (kind_of_table? found) isReady itemsFound sought⟩
      next index sought =>
        obtain ⟨⟨grown, expanded⟩, expanding, done⟩ := bind_eq_ok.mp done
        obtain ⟨⟨answer, stored⟩, storing, done⟩ := bind_eq_ok.mp done
        obtain ⟨rfl, rfl⟩ := Prod.mk.inj (Except.ok.inj done)
        exact .inr ⟨bucket, index, rfl,
          opened_of_missing sound issued (kind_of_table? found) isReady itemsFound sought expanding
            storing⟩

/-- The value is stored in the pair that is waiting for it. -/
theorem value_stored {opened : Heap σ} (sound : opened.Sound held)
    {table bucket value answer key old : Value} {content : HashTable} {slot : Nat}
    {before after : List Value}
    (issued : opened.Issued value) (even : before.length % 2 = 0)
    (here : opened.Place table content slot bucket (before ++ key :: old :: after))
    (ordered : opened.OrderedTable content)
    (done : opened.setItem bucket value (before.length + 1 : Nat) = .ok (answer, heap')) :
    answer = old ∧ heap'.table? table = some content ∧ heap'.OrderedTable content ∧
      (opened.TablesOrdered → heap'.TablesOrdered) ∧ ∃ front back,
        opened.entries table = front ++ (opened.text key, old) :: back ∧
          heap'.entries table = front ++ (opened.text key, (opened.own value).1) :: back := by
  have storing := stored_setItem sound here.payload (by simp) issued done
  have bucketMember := List.mem_of_getElem? here.place
  have different := sound.bucket_ne_table here.found bucketMember here.present here.found
  have previous := storing.previous
  have payload := storing.payload
  have next : before.length + 1 - before.length = 1 := by omega
  rw [List.getElem?_append_right (Nat.le_add_right _ _), next] at previous
  rw [List.set_append_right _ _ (Nat.le_add_right _ _), next, List.set_cons_succ,
    List.set_cons_zero] at payload
  have ownedSound := storing.owning.sound
  have keepsOwn := storing.owning.keeps
  have foundOwned : (opened.own value).2.table? table = some content :=
    keepsOwn.table? sound here.found fun none => none
  have hereOwned : (opened.own value).2.Place table content slot bucket
      (before ++ key :: old :: after) := ⟨foundOwned, here.place, storing.kept⟩
  have orderedOwned : (opened.own value).2.OrderedTable content :=
    keepsOwn.orderedTable sound here.found ordered fun _ _ => Set.notMem_empty _
  have entriesOwned := keepsOwn.entries sound here.found ordered (Set.notMem_empty _)
    (fun _ _ => Set.notMem_empty _)
  have fixed := (here.ordered ordered).fixed key (by rw [keysOf_cons even]; simp)
  have keyIssued : opened.Issued key := sound.issued_child
    (by rw [children, here.payload]; simp [Payload.children] : key ∈ opened.children bucket)
  have found : heap'.table? table = some content := by rw [storing.tables, foundOwned]
  have keeps : Keeps {table, bucket} (opened.own value).2 heap' :=
    storing.replacing.keeps.mono fun _ _ written => .inr written
  obtain ⟨orderedAfter, front, back, entries, entries'⟩ := orderedOwned.replace ownedSound keeps
    hereOwned ⟨found, here.place, payload⟩ even
  rw [entriesOwned] at entries
  rw [(keepsOwn.sameKey keyIssued fixed).2] at entries entries'
  refine ⟨(Option.some.inj previous).symm, found, orderedAfter, fun inOrder => ?_, front, back,
    entries, entries'⟩
  refine keeps.tablesOrdered ownedSound foundOwned found (fun _ written => ?_)
    (fun _ otherFound => by rwa [storing.tables] at otherFound)
    (storing.owning.tables trivial inOrder) orderedAfter
  rcases written with isTable | isBucket
  · exact .inl isTable
  · obtain rfl := Set.mem_singleton_iff.mp isBucket
    exact .inr (by rw [children_of_table? foundOwned]; exact bucketMember)

/-- A pair that has a value may get another. -/
theorem value_tallied {opened : Heap σ} (sound : opened.Sound held)
    {table bucket value answer : Value} {content : HashTable} {slot index : Nat}
    {items : List Value} (issued : opened.Issued value)
    (here : opened.Place table content slot bucket items) (inside : index < items.length)
    (done : opened.setItem bucket value index = .ok (answer, heap'))
    (tallied : opened.TablesTallied) : heap'.TablesTallied := by
  have storing := stored_setItem sound here.payload inside issued done
  have different := sound.bucket_ne_table here.found (List.mem_of_getElem? here.place)
    here.present here.found
  have ownedTallied := storing.owning.tallies trivial tallied
  have hereOwned : (opened.own value).2.Place table content slot bucket items :=
    ⟨storing.owning.keeps.table? sound here.found fun none => none, here.place, storing.kept⟩
  have found : heap'.table? table = some content := by rw [storing.tables, hereOwned.found]
  have keeps : Keeps {table, bucket} (opened.own value).2 heap' :=
    storing.replacing.keeps.mono fun _ _ written => .inr written
  refine (keeps.talliedBesides storing.owning.sound hereOwned.found
    (fun _ written => written.imp_right hereOwned.mem_children)
    (fun _ otherFound => by rwa [storing.tables] at otherFound)
    (ownedTallied.outside _)).complete found ?_
  exact TalliedTable.write storing.owning.sound keeps
    (ownedTallied (Set.notMem_empty _) hereOwned.found) hereOwned storing.payload
    (by rw [List.length_set])

/-- All pairs are counted when a value is stored under a key, unless the key is to be copied and
shows the hash. -/
theorem tallied_setKey (sound : heap.Sound held) {table key value answer : Value}
    (issuedKey : heap.Issued key) (issuedValue : heap.Issued value)
    (apart : key.isScratch = true → heap.kind table = .hash → ¬heap.Below key table)
    (done : heap.setKey table key value = .ok (answer, heap'))
    (tallied : heap.TablesTallied) : heap'.TablesTallied := by
  rw [setKey_eq_openKey] at done
  obtain ⟨⟨place, opened⟩, opening, last⟩ := bind_eq_ok.mp done
  rcases opened_openKey sound issuedKey opening with
    ⟨-, rfl, rfl⟩ | ⟨bucket, index, rfl, isOpened⟩
  · obtain ⟨-, rfl⟩ := Prod.mk.inj (Except.ok.inj last)
    exact tallied
  · obtain ⟨content, slot, items, here, inside⟩ := isOpened.room
    exact value_tallied isOpened.step.sound (isOpened.step.keeps.issued issuedValue) here inside
      last (isOpened.tallied (fun scratch => apart scratch isOpened.isHash) tallied)

theorem Step.setKey (sound : heap.Sound held) {table key value answer : Value}
    (issuedKey : heap.Issued key) (issuedValue : heap.Issued value)
    (done : heap.setKey table key value = .ok (answer, heap')) :
    Step (heap.tableCells table) ((heap.kind key).hasFixedText = true) heap heap' held := by
  have storingKey := done
  rw [setKey_eq_openKey] at storingKey
  obtain ⟨⟨place, opened⟩, opening, last⟩ := bind_eq_ok.mp storingKey
  rcases opened_openKey sound issuedKey opening with
    ⟨-, rfl, rfl⟩ | ⟨bucket, index, rfl, isOpened⟩
  · obtain ⟨-, rfl⟩ := Prod.mk.inj (Except.ok.inj last)
    exact .refl _ _ sound
  · have storing := Step.setItem isOpened.step.sound (isOpened.step.keeps.issued issuedValue) last
    refine ⟨storing.sound, isOpened.step.keeps.trans storing.keeps fun issued _ isBucket => ?_,
      fun fixed inOrder => ?_, fun fixed tallied => ?_⟩
    · obtain rfl := Set.mem_singleton_iff.mp isBucket
      exact .inr (isOpened.origin issued)
    · obtain ⟨content, before, stored, old, after, front, back, here, rfl, even, ordered, -⟩ :=
        isOpened.place fixed inOrder
      obtain ⟨-, -, -, tables, -⟩ := value_stored isOpened.step.sound
        (isOpened.step.keeps.issued issuedValue) even here ordered last
      exact tables (isOpened.step.tables fixed inOrder)
    · exact tallied_setKey sound issuedKey issuedValue (fun scratch isHash =>
        sound.not_below_of_fixed fixed scratch isHash) done tallied

/-- The value that is stored when `value` is stored under a key: `value` itself, or the copy
that is made of a scratch value. -/
def ownedUnder (heap : Heap σ) (table key value : Value) : Value :=
  if value.isScratch then
    match heap.openKey table key with
    | .ok (_, opened) => (opened.clone value).1
    | .error _ => .null
  else value

/-- A key is stored: its text has the new value, all other texts have what they had. -/
theorem entries_setKey (sound : heap.Sound held) {table key value answer : Value}
    {content : HashTable} (found : heap.table? table = some content)
    (ordered : heap.OrderedTable content) (fixed : (heap.kind key).hasFixedText = true)
    (issuedKey : heap.Issued key) (issuedValue : heap.Issued value)
    (done : heap.setKey table key value = .ok (answer, heap')) :
    ∃ content' front back,
      heap'.table? table = some content' ∧ heap'.OrderedTable content' ∧
      heap'.entries table =
        front ++ (heap.text key, heap.ownedUnder table key value) :: back ∧
      (heap.entries table = front ++ (heap.text key, answer) :: back ∨
        answer = .null ∧ heap.entries table = front ++ back) := by
  rw [setKey_eq_openKey] at done
  obtain ⟨⟨place, opened⟩, opening, done⟩ := bind_eq_ok.mp done
  rcases opened_openKey sound issuedKey opening with
    ⟨absent, -, -⟩ | ⟨bucket, index, rfl, isOpened⟩
  · rw [found] at absent
    contradiction
  · have inOrder : heap.InOrder table := fun otherFound => by
      rw [found] at otherFound
      exact Option.some.inj otherFound ▸ ordered
    obtain ⟨content', before, stored, old, after, front, back, here, rfl, even, orderedOpened,
      isText, entriesOpened, entries⟩ := isOpened.place fixed inOrder
    obtain ⟨rfl, found', ordered', -, front', back', entriesOpened', entries'⟩ :=
      value_stored isOpened.step.sound (isOpened.step.keeps.issued issuedValue) even here
        orderedOpened done
    have owned : heap.ownedUnder table key value = (opened.own value).1 := by
      rw [ownedUnder, opening, own]
      split <;> rfl
    rw [isText] at entriesOpened' entries'
    have distinct := orderedOpened.nodup_entries here.found
    rw [entriesOpened'] at distinct
    obtain ⟨rfl, rfl⟩ := cut_unique distinct (entriesOpened'.symm.trans entriesOpened)
    exact ⟨content', front', back', found', ordered', by rw [owned, entries'], entries⟩

/-! ## Erasing a pair -/

theorem exists_pair_at {items : List Value} {index : Nat} (inside : index + 1 < items.length) :
    ∃ before key value after, items = before ++ key :: value :: after ∧ before.length = index := by
  refine ⟨items.take index, items[index], items[index + 1], items.drop (index + 1 + 1), ?_,
    List.length_take_of_le (by omega)⟩
  rw [← List.drop_eq_getElem_cons inside, ← List.drop_eq_getElem_cons (by omega),
    List.take_append_drop]

/-- Where a text was found, in terms of the table. -/
theorem locate?_eq_some {table bucket : Value} {text : String} {index : Nat}
    (located : heap.locate? table text = some (bucket, index)) :
    ∃ content items, heap.table? table = some content ∧ bucket ∈ content.buckets ∧
      heap.items? bucket = some items ∧ index + 1 < items.length := by
  unfold locate? at located
  split at located
  next => contradiction
  next content found =>
    split at located
    next => contradiction
    next other place =>
      split at located
      next => contradiction
      next items itemsFound =>
        split at located
        next position sought =>
          obtain ⟨rfl, rfl⟩ := Prod.mk.inj (Option.some.inj located)
          exact ⟨content, items, found, List.mem_of_getElem? place, itemsFound,
            Records.lt_length_of_seek_found sought⟩
        next => contradiction

theorem Step.clearItem (sound : heap.Sound held) {sequence : Value} {items : List Value}
    (found : heap.items? sequence = some items) {index : Nat} (inside : index < items.length) :
    Step {sequence} (¬heap.IsBucket sequence) heap (heap.clearItem sequence index).2 held := by
  rw [Heap.clearItem, found]
  exact .replaceItem sound found (by simp : items = items ++ List.replicate 0 .null) inside
    issued_null rfl

theorem items?_clearItem {sequence : Value} {items : List Value}
    (found : heap.items? sequence = some items) (index : Nat) :
    (heap.clearItem sequence index).2.items? sequence = some (items.set index .null) := by
  rw [clearItem, found]
  simp only [replaceItem]
  rw [items?, payload_release, payload_retain, ← items?, items?_setChildren found]

/-- The heap after a pair was taken out of its bucket and before it is discounted. -/
def takePair (heap : Heap σ) (bucket : Value) (index : Nat) : Heap σ :=
  ((heap.clearItem bucket index).2.clearItem bucket (index + 1)).2.collapseItems bucket index 2 |>.2

theorem Step.takePair (sound : heap.Sound held) {bucket : Value} {items : List Value}
    (found : heap.items? bucket = some items) {index : Nat} (inside : index + 1 < items.length) :
    Step {bucket} False heap (heap.takePair bucket index) held := by
  have first := Step.clearItem sound found (by omega : index < items.length)
  have second := Step.clearItem first.sound (items?_clearItem found index)
    (by rw [List.length_set]; exact inside)
  have third := Step.collapseItems second.sound bucket index 2
  have opening : Step {bucket} False heap (heap.clearItem bucket index).2 held :=
    first.mono (fun _ _ => id) False.elim
  exact (opening.trans second (fun _ _ => id) False.elim).trans third (fun _ _ => id) False.elim

theorem eraseKey_eq_takePair (table key : Value) :
    heap.eraseKey table key =
      match heap.locate? table (heap.text key) with
      | none => (.null, heap)
      | some (bucket, index) =>
          (((heap.clearItem bucket index).2.clearItem bucket (index + 1)).1,
            (heap.takePair bucket index).uncountPair table) := by
  unfold eraseKey
  cases heap.locate? table (heap.text key) <;> rfl

/-- Taking a pair of an ordered table. -/
theorem takePair_of_place {table bucket key value : Value} {content : HashTable} {slot : Nat}
    {before after : List Value}
    (here : heap.Place table content slot bucket (before ++ key :: value :: after)) :
    ((heap.clearItem bucket before.length).2.clearItem bucket (before.length + 1)).1 = value ∧
      (heap.takePair bucket before.length).payload bucket = .array (before ++ after) ∧
      ∀ other, (heap.takePair bucket before.length).table? other = heap.table? other := by
  have found : heap.items? bucket = some (before ++ key :: value :: after) := by
    rw [items?, here.payload]
    rfl
  have next : before.length + 1 - before.length = 1 := by omega
  obtain ⟨-, payload, tables⟩ := replaceItem_of_payload .null here.payload
    (by simp : before.length < (before ++ key :: value :: after).length)
  rw [List.set_append_right _ _ le_rfl, Nat.sub_self, List.set_cons_zero] at payload
  have clear : heap.clearItem bucket before.length =
      heap.replaceItem bucket (before ++ key :: value :: after) before.length .null := by
    rw [clearItem, found]
  rw [← clear] at payload tables
  have found' : (heap.clearItem bucket before.length).2.items? bucket =
      some (before ++ .null :: value :: after) := by
    rw [items?, payload]
    rfl
  obtain ⟨previous, payload', tables'⟩ := replaceItem_of_payload .null payload
    (by simp : before.length + 1 < (before ++ Value.null :: value :: after).length)
  rw [List.set_append_right _ _ (Nat.le_add_right _ _), next, List.set_cons_succ,
    List.set_cons_zero] at payload'
  have clear' : (heap.clearItem bucket before.length).2.clearItem bucket (before.length + 1) =
      (heap.clearItem bucket before.length).2.replaceItem bucket
        (before ++ .null :: value :: after) (before.length + 1) .null := by
    rw [clearItem, found']
  rw [← clear'] at previous payload' tables'
  obtain ⟨payload'', tables''⟩ := collapseItems_of_payload payload'
  refine ⟨?_, payload'', fun other => ?_⟩
  · rw [previous, List.getElem_append_right (Nat.le_add_right _ _)]
    simp
  · rw [takePair, tables'', tables', tables]

/-- What erasing a key that is there comes to. -/
theorem erased_of_place (sound : heap.Sound held) {table bucket key value : Value}
    {content : HashTable} {slot : Nat} {before after : List Value}
    (ordered : heap.OrderedTable content) (even : before.length % 2 = 0)
    (here : heap.Place table content slot bucket (before ++ key :: value :: after)) :
    ((heap.takePair bucket before.length).uncountPair table).table? table =
        some { content with pairs := content.pairs - 1 } ∧
      ((heap.takePair bucket before.length).uncountPair table).OrderedTable
        { content with pairs := content.pairs - 1 } ∧ ∃ front back,
      heap.entries table = front ++ (heap.text key, value) :: back ∧
        ((heap.takePair bucket before.length).uncountPair table).entries table =
          front ++ back := by
  have found : heap.items? bucket = some (before ++ key :: value :: after) := by
    rw [items?, here.payload]
    rfl
  obtain ⟨-, payload, tables⟩ := takePair_of_place here
  have taking := Step.takePair sound found
    (by simp : before.length + 1 < (before ++ key :: value :: after).length)
  have takenFound : (heap.takePair bucket before.length).table? table = some content := by
    rw [tables, here.found]
  have different := sound.bucket_ne_table here.found (List.mem_of_getElem? here.place)
    here.present here.found
  have discounted : (heap.takePair bucket before.length).uncountPair table =
      (heap.takePair bucket before.length).setTable table
        { content with pairs := content.pairs - 1 } := by
    rw [uncountPair, takenFound]
  have foundAfter : ((heap.takePair bucket before.length).setTable table
      { content with pairs := content.pairs - 1 }).table? table =
        some { content with pairs := content.pairs - 1 } := table?_setTable takenFound
  rw [discounted]
  refine ⟨foundAfter, ordered.erase sound ?_ here
    ⟨foundAfter, here.place, by rw [payload_setTable_of_ne different, payload]⟩ even⟩
  exact (taking.keeps.mono fun _ _ written => .inr written).recount takenFound (.inl rfl) _

/-- A pair that is taken out is discounted. -/
theorem tallied_takePair (sound : heap.Sound held) {table bucket key value : Value}
    {content : HashTable} {slot : Nat} {before after : List Value}
    (here : heap.Place table content slot bucket (before ++ key :: value :: after))
    (tallied : heap.TablesTallied) :
    ((heap.takePair bucket before.length).uncountPair table).TablesTallied := by
  have itemsFound : heap.items? bucket = some (before ++ key :: value :: after) := by
    rw [items?, here.payload]
    rfl
  obtain ⟨-, payload, tables⟩ := takePair_of_place here
  have taking := Step.takePair sound itemsFound
    (by simp : before.length + 1 < (before ++ key :: value :: after).length)
  have takenFound := (tables table).trans here.found
  have different := sound.bucket_ne_table here.found (List.mem_of_getElem? here.place)
    here.present here.found
  have keeps : Keeps {table, bucket} heap ((heap.takePair bucket before.length).setTable table
      { content with pairs := content.pairs - 1 }) :=
    (taking.keeps.mono fun _ _ written => .inr written).recount takenFound (.inl rfl) _
  have tally : heap.TalliedTable content := tallied (Set.notMem_empty _) here.found
  -- The pair is there, so the count does not stop at zero.
  have positive : 0 < content.pairs := by
    have whole := length_pairs_cut heap here.place
    rw [← tally, bucketPairs_of_payload here.payload, length_pairUp, List.length_append,
      List.length_cons, List.length_cons] at whole
    omega
  rw [uncountPair, takenFound]
  refine (keeps.talliedBesides sound here.found
    (fun _ written => written.imp_right here.mem_children) (fun otherDifferent otherFound => ?_)
    (tallied.outside _)).complete (table?_setTable takenFound) ?_
  · rwa [table?_setTable_of_ne otherDifferent, tables] at otherFound
  · refine TalliedTable.write sound keeps tally here
      (by rw [payload_setTable_of_ne different, payload]) ?_
    simp only [List.length_append, List.length_cons]
    omega

theorem Step.eraseKey (sound : heap.Sound held) (table key : Value) :
    Step (heap.tableCells table) True heap (heap.eraseKey table key).2 held := by
  rw [eraseKey_eq_takePair]
  split
  next => exact .refl _ _ sound
  next bucket index located =>
    obtain ⟨content, items, found, member, itemsFound, inside⟩ := locate?_eq_some located
    have taking := Step.takePair sound itemsFound inside
    have present : bucket ≠ .null := by
      rintro rfl
      simp [items?, payload, Payload.items?] at itemsFound
    have different := sound.bucket_ne_table found member present found
    have takenFound : (heap.takePair bucket index).table? table = some content :=
      taking.keeps.table? sound found fun written => different written.symm
    have discounted : (heap.takePair bucket index).uncountPair table =
        (heap.takePair bucket index).setTable table
          { content with pairs := content.pairs - 1 } := by
      rw [uncountPair, takenFound]
    have keeps : Keeps {table, bucket} heap ((heap.takePair bucket index).uncountPair table) := by
      rw [discounted]
      exact (taking.keeps.mono fun _ _ written => .inr written).recount takenFound (.inl rfl) _
    have covered : ∀ {value}, heap.Issued value → value ∈ ({table, bucket} : Set Value) →
        value ∈ heap.tableCells table := by
      intro value _ written
      rcases written with isTable | isBucket
      · exact .inl isTable
      · obtain rfl := Set.mem_singleton_iff.mp isBucket
        exact .inr (by rw [children_of_table? found]; exact member)
    refine ⟨?_, keeps.mono fun issued _ => covered issued, fun _ inOrder => ?_,
      fun _ tallied => ?_⟩
    · rw [discounted]
      exact taking.sound.recount takenFound _
    · rcases (inOrder found).locate found (heap.text key) with
        ⟨bucket', before, key', value, after, place, payload, even, -, located', -⟩ | ⟨missing, -⟩
      · rw [located] at located'
        obtain ⟨rfl, rfl⟩ := Prod.mk.inj (Option.some.inj located')
        have here : heap.Place table content _ bucket (before ++ key' :: value :: after) :=
          ⟨found, place, payload⟩
        obtain ⟨foundAfter, orderedAfter, -⟩ := erased_of_place sound (inOrder found) even here
        obtain ⟨-, -, tables⟩ := takePair_of_place here
        show ((heap.takePair bucket before.length).uncountPair table).TablesOrdered
        refine keeps.tablesOrdered sound found foundAfter covered
          (fun otherDifferent otherFound => ?_) inOrder orderedAfter
        rwa [discounted, table?_setTable_of_ne otherDifferent, tables] at otherFound
      · rw [missing] at located
        contradiction
    · obtain ⟨slot, place⟩ := List.mem_iff_getElem?.mp member
      obtain ⟨before, key', value, after, rfl, rfl⟩ := exists_pair_at inside
      exact tallied_takePair sound ⟨found, place, sound.bucket_array found member itemsFound⟩
        tallied

/-- A key is erased: its text has no value, all other texts have what they had. -/
theorem entries_eraseKey (sound : heap.Sound held) {table key : Value} {content : HashTable}
    (found : heap.table? table = some content) (ordered : heap.OrderedTable content) :
    ∃ content', (heap.eraseKey table key).2.table? table = some content' ∧
      (heap.eraseKey table key).2.OrderedTable content' ∧
      ((∃ front back,
          heap.entries table = front ++ (heap.text key, (heap.eraseKey table key).1) :: back ∧
            (heap.eraseKey table key).2.entries table = front ++ back) ∨
        (heap.entries table).lookup (heap.text key) = none ∧
          heap.eraseKey table key = (.null, heap)) := by
  rw [eraseKey_eq_takePair]
  rcases ordered.locate found (heap.text key) with
    ⟨bucket, before, key', value, after, place, payload, even, isText, located, -⟩ |
    ⟨missing, looked⟩
  · rw [located]
    have here : heap.Place table content _ bucket (before ++ key' :: value :: after) :=
      ⟨found, place, payload⟩
    obtain ⟨foundAfter, orderedAfter, front, back, entries, entries'⟩ :=
      erased_of_place sound ordered even here
    obtain ⟨removed, -, -⟩ := takePair_of_place here
    exact ⟨_, foundAfter, orderedAfter, .inl ⟨front, back, by rw [entries, isText, removed],
      entries'⟩⟩
  · rw [missing]
    exact ⟨content, found, ordered, .inr ⟨looked, rfl⟩⟩

/-! ## Lists of keys and of values -/

theorem issued_pairs (sound : heap.Sound held) {table : Value} {pair : Value × Value}
    (member : pair ∈ heap.pairs table) : heap.Issued pair.1 ∧ heap.Issued pair.2 := by
  unfold pairs at member
  split at member
  next content found =>
    obtain ⟨bucket, -, inside⟩ := List.mem_flatMap.mp member
    unfold bucketPairs at inside
    split at inside
    next items itemsFound =>
      obtain ⟨first, second⟩ := mem_of_mem_pairUp inside
      exact ⟨issued_items sound itemsFound first, issued_items sound itemsFound second⟩
    next => simp at inside
  next => simp at member

theorem Step.keys (sound : heap.Sound held) (table : Value) :
    Step ∅ True heap (heap.keys table).2 held := by
  refine .arrayOf sound fun key member => ?_
  obtain ⟨pair, inside, rfl⟩ := List.mem_map.mp member
  exact (issued_pairs sound inside).1

theorem Step.values (sound : heap.Sound held) (table : Value) :
    Step ∅ True heap (heap.values table).2 held := by
  refine .arrayOf sound fun value member => ?_
  obtain ⟨pair, inside, rfl⟩ := List.mem_map.mp member
  exact (issued_pairs sound inside).2

end CountedHeap.Heap
