import CountedHeap.Proofs.Alterations
import CountedHeap.Proofs.Tables

/-!
Contract: what one write leaves in a container, in any heap.

Nothing is asked of the handles: a bucket may have been written by hand, and its keys may name
nothing.  So the searched texts are those of the heap in which the search is made.

Owns:
- `Puts`, one item or one pair of a container before and after;
- storing an item, and storing a pair step by step;
- storing under a key as one of these.

Does not own: scratch keys, and what is made around a write.
-/

namespace CountedHeap

/-- Padding ends, or asks for the new length. -/
theorem ends_padTo (length : Nat) (items : List Value) :
    EndsWithin length (padTo length items) fun answer => answer = padded length items := by
  by_cases fits : Fits items length
  · rw [padTo_of_fits fits]
    exact .ended rfl
  · obtain ⟨short, beyond⟩ := not_or.mp fits
    rw [padTo, if_neg short, if_neg beyond]
    exact .noRoom (Nat.lt_of_not_le beyond) le_rfl

namespace Heap

variable {σ : Signature} {heap heap' source : Heap σ} {cells : Set Value} {bound : Nat}
  {sequence table bucket value stored : Value} {items before after : List Value}
  {content : HashTable} {part text : String}

/-! ## Items -/

/-- Storing an element ends, or there is no room for the padding. -/
theorem ends_setItem (consistent : heap.Consistent) (found : heap.items? sequence = some items)
    (element : Value) {offset : Int} {index : Nat}
    (position : position? items.length offset = some index) :
    EndsWithin (index + 1) (heap.setItem sequence element offset) fun result =>
      result.1 = items[index]?.getD .null ∧
        Rewrites (heap.own element).2 result.2 sequence
          ((padded (index + 1) items).set index (heap.own element).1) := by
  by_cases fits : Fits items (index + 1)
  · obtain ⟨heap', done, storing⟩ :=
      rewrites_setItem_owned consistent found element position fits
    rw [done]
    exact .ended ⟨rfl, storing⟩
  · obtain ⟨short, beyond⟩ := not_or.mp fits
    have kept := (Rewrites.own consistent found element).items? found
    have refused : padTo (index + 1) items = .error (.storage (index + 1)) := by
      rw [padTo, if_neg short, if_neg beyond]
    simp only [setItem, itemPosition?_of_items? found, position, kept, refused]
    exact .noRoom (Nat.lt_of_not_le beyond) le_rfl

/-- Storing an element at a place that exists asks for no room. -/
theorem ends_setItem_at (bound : Nat) (consistent : heap.Consistent) {old : Value}
    (found : heap.items? sequence = some (before ++ old :: after)) (element : Value) :
    EndsWithin bound (heap.setItem sequence element before.length) fun result =>
      result.1 = old ∧
        Rewrites (heap.own element).2 result.2 sequence
          (before ++ (heap.own element).1 :: after) := by
  have inside : before.length + 1 ≤ (before ++ old :: after).length := by simp
  obtain ⟨heap', done, storing⟩ := rewrites_setItem_owned consistent found element
    (position?_ofNat _ before.length) (.inl inside)
  rw [List.getElem?_append_right le_rfl, Nat.sub_self, List.getElem?_cons_zero,
    Option.getD_some] at done
  rw [padded_of_le inside, List.set_append_right _ _ le_rfl, Nat.sub_self,
    List.set_cons_zero] at storing
  rw [done]
  exact .ended ⟨rfl, storing⟩

/-- Opening a gap within a list ends, or there is no room for it. -/
theorem ends_expandItems (found : heap.items? sequence = some (before ++ after)) (count : Nat)
    (room : (before ++ after).length + count ≤ bound) :
    EndsWithin bound (heap.expandItems sequence before.length count) fun result =>
      result.2 = heap.setChildren sequence (before ++ List.replicate count .null ++ after) := by
  have position := position?_ofNat (before ++ after).length before.length
  have inside : max (before ++ after).length before.length = (before ++ after).length := by simp
  by_cases fits : Fits (before ++ after) ((before ++ after).length + count)
  · rw [expandItems_eq found position (by rwa [inside]), padded_of_le (by simp),
      List.take_left' rfl, List.drop_left' rfl]
    exact .ended rfl
  · obtain ⟨short, beyond⟩ := not_or.mp fits
    have refused : padTo ((before ++ after).length + count) (before ++ after) =
        .error (.storage ((before ++ after).length + count)) := by
      rw [padTo, if_neg short, if_neg beyond]
    have reached : padTo before.length (before ++ after) = .ok (before ++ after) :=
      padTo_of_le (by simp)
    simp only [expandItems, found, position, reached, bind, Except.bind, refused]
    exact .noRoom (Nat.lt_of_not_le beyond) room

/-! ## Pairs -/

theorem isLive_of_payload_text {value : Value} (content : heap.payload value = .text text) :
    heap.isLive value = true :=
  isLive_of_payload_ne (by rw [content]; simp)

/-- A scratch string is owned as a new string. -/
theorem own_of_text {key : Value} (scratch : key.isScratch = true)
    (content : heap.payload key = .text text) : heap.own key = heap.create (.text text) := by
  have live : heap.isLive key = true := isLive_of_payload_text content
  obtain ⟨cell, found⟩ := isLive_iff.mp live
  obtain ⟨depth, -, copying⟩ := heap.exists_clone_eq key
  rw [payload_of_cell? found] at content
  rw [Heap.own, if_pos scratch, copying, cloneWithin]
  simp only [List.lookup_nil, found, content, scratch, Payload.shell?, Payload.kind, Kind.isMulti,
    Payload.isPlainData, Bool.false_eq_true, if_false, if_true]

/-- No value is a hash and a sequence. -/
theorem ne_of_table?_of_items? (isTable : heap.table? table = some content)
    (isSequence : heap.items? sequence = some items) : table ≠ sequence := by
  rintro rfl
  rw [table?_eq_some_iff] at isTable
  rw [Heap.items?, isTable] at isSequence
  contradiction

/-- The key of a new pair is stored: the pair begins with a new string. -/
theorem ends_storeKey (bound : Nat) (consistent : heap.Consistent)
    (gap : heap.items? bucket = some (before ++ .null :: .null :: after)) {key : Value}
    (scratch : key.isScratch = true) (named : heap.payload key = .text text) :
    EndsWithin bound (heap.setItem bucket key before.length) fun result =>
      Alters {bucket} heap result.2 ∧ ∃ name, ¬heap.Issued name ∧
        result.2.payload name = .text text ∧
        result.2.items? bucket = some (before ++ name :: .null :: after) := by
  have storing := ends_setItem_at bound consistent gap key
  rw [own_of_text scratch named] at storing
  apply storing.mono
  rintro ⟨old, keyed⟩ ⟨-, storing⟩
  have making : Alters {bucket} heap (heap.create (.text text)).2 := .create consistent _
  have live : heap.isLive bucket = true := isLive_of_items? gap
  have kept : (heap.create (.text text)).2.items? bucket =
      some (before ++ .null :: .null :: after) := by
    rw [Heap.items?, payload_create_of_issued consistent _ (consistent.issued live), ← Heap.items?,
      gap]
  refine ⟨making.trans (.of_rewrites storing) fun _ => id, (heap.create (.text text)).1,
    not_issued_create consistent _, ?_, storing.items? kept⟩
  rw [storing.others (issued_create_self consistent _), payload_create_self consistent]
  rintro same
  rw [← same] at live
  exact not_issued_create consistent _ (consistent.issued live)

/-- The value of a new pair is stored, and the pair is counted. -/
theorem ends_storeValue (consistent : heap.Consistent) (isTable : heap.table? table = some content)
    {name : Value} (isBucket : heap.items? bucket = some (before ++ name :: .null :: after))
    (value : Value) :
    EndsWithin bound ((heap.countPair table).setItem bucket value (before.length + 1 : Nat))
      fun result => result.1 = .null ∧ Alters {table, bucket} heap result.2 ∧
        result.2.table? table = some { content with pairs := content.pairs + 1 } ∧
        ∃ stored, heap.OwnsAs {table} value stored ∧
          result.2.items? bucket = some (before ++ name :: stored :: after) := by
  have different := ne_of_table?_of_items? isTable isBucket
  have issuedTable := consistent.issued (isLive_of_table? isTable)
  have issuedBucket := consistent.issued (isLive_of_items? isBucket)
  rw [countPair_of_found isTable]
  have counting : Alters {table} heap
      (heap.setTable table { content with pairs := content.pairs + 1 }) :=
    .setTable consistent table _
  have counted : (heap.setTable table { content with pairs := content.pairs + 1 }).table? table =
      some { content with pairs := content.pairs + 1 } := table?_setTable isTable
  have there := (counting.items? issuedBucket (Ne.symm different)).trans isBucket
  revert counting counted there
  generalize heap.setTable table { content with pairs := content.pairs + 1 } = ready
  intro counting counted there
  have split : before ++ name :: .null :: after = (before ++ [name]) ++ .null :: after := by simp
  rw [split] at there
  have storing := ends_setItem_at bound counting.consistent there value
  rw [List.length_append, List.length_singleton] at storing
  apply storing.mono
  rintro ⟨old, last⟩ ⟨rfl, storing⟩
  have owning : Alters ∅ ready (ready.own value).2 := .own counting.consistent value
  have writing : Alters {table, bucket} heap (ready.own value).2 :=
    (counting.mono fun _ => .inl).trans owning fun _ => False.elim
  refine ⟨rfl, writing.trans (.of_rewrites storing) fun _ => .inr, ?_, _,
    ⟨ready, counting, rfl⟩, ?_⟩
  · rw [(Alters.of_rewrites storing).table? (writing.issued issuedTable) different,
      owning.table? (counting.issued issuedTable) (Set.notMem_empty _), counted]
  · have kept := owning.items? (counting.issued issuedBucket) (Set.notMem_empty _)
    rw [storing.items? (kept.trans there)]
    simp

/-- A pair is inserted: a gap is opened, the key is stored in it, the pair is counted, and the value
is stored. -/
theorem ends_insertPair (consistent : heap.Consistent) (isTable : heap.table? table = some content)
    (isBucket : heap.items? bucket = some (before ++ after)) {key : Value}
    (scratch : key.isScratch = true) (named : heap.payload key = .text text) (value : Value)
    (room : (before ++ after).length + 2 ≤ bound) :
    EndsWithin bound (do
      let (_, expanded) ← heap.expandItems bucket before.length 2
      let (_, keyed) ← expanded.setItem bucket key before.length
      (keyed.countPair table).setItem bucket value (before.length + 1 : Nat)) fun result =>
        result.1 = .null ∧ Alters {table, bucket} heap result.2 ∧
        result.2.table? table = some { content with pairs := content.pairs + 1 } ∧
        ∃ name stored, ¬heap.Issued name ∧ result.2.payload name = .text text ∧
          heap.OwnsAs {table, bucket} value stored ∧
          result.2.items? bucket = some (before ++ name :: stored :: after) := by
  have different := ne_of_table?_of_items? isTable isBucket
  have issuedTable := consistent.issued (isLive_of_table? isTable)
  have issuedKey : heap.Issued key :=
    consistent.issued (isLive_of_payload_text named)
  have apart : key ≠ bucket := by
    rintro rfl
    rw [Heap.items?, named] at isBucket
    contradiction
  apply (ends_expandItems isBucket 2 room).bind
  rintro ⟨grown, expanded⟩ rfl
  have rewriting := Rewrites.setItems consistent isBucket
    (before ++ List.replicate 2 .null ++ after)
  have gap : (heap.setChildren bucket (before ++ List.replicate 2 .null ++ after)).items? bucket =
      some (before ++ .null :: .null :: after) := by
    rw [rewriting.items? isBucket, List.append_assoc]
    rfl
  have opening := Alters.of_rewrites rewriting
  dsimp only
  revert opening gap
  generalize heap.setChildren bucket (before ++ List.replicate 2 .null ++ after) = expanded
  intro gap opening
  apply (ends_storeKey bound opening.consistent gap scratch
    ((opening.payload issuedKey apart).trans named)).bind
  rintro ⟨old, keyed⟩ ⟨keying, name, fresh, named', there⟩
  have writing : Alters {bucket} heap keyed := opening.trans keying fun _ => id
  have isTable' := (writing.table? issuedTable different).trans isTable
  apply (ends_storeValue writing.consistent isTable' there value).mono
  rintro ⟨answer, last⟩ ⟨missed, storing, counted, stored, ⟨between, changing, owned⟩, whole⟩
  have writing' : Alters {table, bucket} heap keyed := writing.mono fun _ => .inr
  refine ⟨missed, writing'.trans storing fun _ => id, counted, name, stored,
    fun issued => fresh (opening.issued issued), ?_,
    ⟨between, writing'.trans changing fun _ => .inl, owned⟩, whole⟩
  have issuedName : keyed.Issued name :=
    writing.consistent.issued (isLive_of_payload_text named')
  rw [storing.payload issuedName, named']
  rintro (rfl | rfl)
  · rw [table?_eq_some_iff, named'] at isTable'
    contradiction
  · rw [Heap.items?, named'] at there
    contradiction

/-! ## Buckets -/

/-- The buckets of a table when a pair is stored in it: if there were none, they are made now. -/
def bucketsOf (heap : Heap σ) (content : HashTable) : List Value :=
  if content.buckets.isEmpty then List.replicate (max heap.config.hashBuckets 1) .null
  else content.buckets

theorem bucketsOf_of_ne_nil (nonempty : content.buckets ≠ []) :
    heap.bucketsOf content = content.buckets := by
  rw [bucketsOf, if_neg (by simpa using nonempty)]

theorem bucketsOf_ne_nil (content : HashTable) : heap.bucketsOf content ≠ [] := by
  unfold bucketsOf
  split
  next => simp
  next nonempty => simpa using nonempty

theorem ne_null_of_items? (found : heap.items? bucket = some items) : bucket ≠ .null := by
  rintro rfl
  contradiction

/-- Buckets of which one has an array are not made now. -/
theorem bucketsOf_of_items? {slot : Nat} (place : (heap.bucketsOf content)[slot]? = some bucket)
    (found : heap.items? bucket = some items) : heap.bucketsOf content = content.buckets := by
  apply bucketsOf_of_ne_nil
  intro empty
  rw [bucketsOf, empty] at place
  exact ne_null_of_items? found (List.eq_of_mem_replicate (List.mem_of_getElem? place))

/-- A hash without buckets asks for room for its buckets. -/
theorem ends_allocatedBuckets
    (slots : content.buckets = [] → max heap.config.hashBuckets 1 ≤ bound) :
    EndsWithin bound (heap.allocatedBuckets content) fun buckets =>
      buckets = heap.bucketsOf content := by
  unfold allocatedBuckets bucketsOf
  split
  next empty =>
    apply ((ends_padTo _ []).widen (slots (List.isEmpty_iff.mp empty))).mono
    rintro buckets rfl
    simp [padded]
  next => exact .ended rfl

/-- The array of a bucket and its items: the one that is there, or a new one. -/
inductive BucketFor (heap : Heap σ) (buckets : List Value) (slot : Nat) (bucket : Value) :
    List Value → Prop
  | there {items : List Value} (place : buckets[slot]? = some bucket)
      (found : heap.items? bucket = some items) : BucketFor heap buckets slot bucket items
  | made (fresh : ¬heap.Issued bucket)
      (noArray : ∀ old, buckets[slot]? = some old → heap.items? old = none) :
      BucketFor heap buckets slot bucket []

/-- What is at hand before a pair is stored: the array of the bucket, in a heap that is the same if
there are items in it. -/
structure Prepares (heap : Heap σ) (table : Value) (content : HashTable) (slot : Nat)
    (bucket : Value) (items : List Value) (ready : Heap σ) : Prop where
  bucketFor : heap.BucketFor (heap.bucketsOf content) slot bucket items
  alters : Alters {table} heap ready
  isTable : ready.table? table =
    some { content with buckets := (heap.bucketsOf content).set slot bucket }
  isBucket : ready.items? bucket = some items
  unchanged : items ≠ [] → ready = heap

/-- A table is written with the buckets that it gets, which changes nothing else. -/
theorem items?_setTable (isTable : heap.table? table = some content) (content' : HashTable)
    (value : Value) : (heap.setTable table content').items? value = heap.items? value := by
  by_cases same : value = table
  · have written : (heap.setTable table content').table? table = some content' :=
      table?_setTable isTable
    rw [table?_eq_some_iff] at isTable written
    rw [same, Heap.items?, written, Heap.items?, isTable]
    rfl
  · rw [Heap.items?, payload_setTable_of_ne same, Heap.items?]

/-- The array of a bucket is there. -/
theorem prepares_of_items? (consistent : heap.Consistent)
    (isTable : heap.table? table = some content) {slot : Nat}
    (place : (heap.bucketsOf content)[slot]? = some bucket)
    (found : heap.items? bucket = some items) :
    heap.setTable table { content with buckets := heap.bucketsOf content } = heap ∧
      heap.Prepares table content slot bucket items heap := by
  have same := bucketsOf_of_items? place found
  have kept : ({ content with buckets := heap.bucketsOf content } : HashTable) = content := by
    rw [same]
  refine ⟨by rw [kept, setTable_self isTable], .there place found, .refl _ consistent, ?_, found,
    fun _ => rfl⟩
  obtain ⟨inside, rfl⟩ := List.getElem?_eq_some_iff.mp place
  rw [List.set_getElem_self, kept, isTable]

/-- The array of a bucket is made. -/
theorem prepares_made (consistent : heap.Consistent)
    (isTable : heap.table? table = some content) {slot : Nat}
    (noArray : ∀ old, (heap.bucketsOf content)[slot]? = some old → heap.items? old = none) :
    let buckets := heap.bucketsOf content
    let made := (heap.setTable table { content with buckets }).create (.array [])
    heap.Prepares table content slot made.1 []
      ((made.2.retain made.1).setTable table
        { content with buckets := buckets.set slot made.1 }) := by
  intro buckets made
  have allocating : Alters {table} heap (heap.setTable table { content with buckets }) :=
    .setTable consistent table _
  have fresh : ¬heap.Issued made.1 := fun issued =>
    not_issued_create allocating.consistent _ (allocating.issued issued)
  have creating : Alters ∅ (heap.setTable table { content with buckets }) made.2 :=
    .create allocating.consistent _
  have retaining : Alters ∅ made.2 (made.2.retain made.1) :=
    .of_grows (.retain _ _) (creating.consistent.modifyCell _ _)
  have making : Alters ∅ _ (made.2.retain made.1) := creating.trans retaining fun _ => False.elim
  have issuedTable := consistent.issued (isLive_of_table? isTable)
  have allocated : (made.2.retain made.1).table? table = some { content with buckets } := by
    rw [making.table? (allocating.issued issuedTable) (Set.notMem_empty _), table?_setTable isTable]
  have empty : (made.2.retain made.1).items? made.1 = some [] := by
    rw [Heap.items?, payload_retain, payload_create_self allocating.consistent]
    rfl
  refine ⟨.made fresh noArray, ?_, table?_setTable allocated, ?_,
    fun nonempty => absurd rfl nonempty⟩
  · exact (allocating.trans making fun _ => False.elim).trans
      (.setTable making.consistent table _) fun _ => id
  · rw [items?_setTable allocated, empty]

/-- The array of a bucket is at hand, with the buckets. -/
theorem exists_prepares (consistent : heap.Consistent) (isTable : heap.table? table = some content)
    (slot : Nat) :
    let buckets := heap.bucketsOf content
    let prepared := (heap.setTable table { content with buckets }).bucketArray table
      { content with buckets } slot
    ∃ items, heap.Prepares table content slot prepared.1 items prepared.2 := by
  intro buckets prepared
  have items?_bucket : ∀ value, (heap.setTable table { content with buckets }).items? value =
      heap.items? value := items?_setTable isTable _
  simp only [prepared, bucketArray, items?_bucket]
  cases found : heap.items? (buckets[slot]?.getD .null) with
  | none =>
      refine ⟨[], prepares_made consistent isTable fun old place => ?_⟩
      rwa [place] at found
  | some items =>
      cases place : buckets[slot]? with
      | none =>
          rw [place] at found
          contradiction
      | some bucket =>
          rw [place] at found
          obtain ⟨same, prepares⟩ := prepares_of_items? consistent isTable place found
          exact ⟨items, same.symm ▸ prepares⟩

/-! ## Storing under a key -/

/-- One item or one pair of a container before and after something was stored under a part, and what
was there before.  The texts of the keys that are searched are those of `source`.

An item is replaced, in a list that is padded up to it.  The value of a pair is replaced.  Or a pair
with a new key is inserted into the bucket of the part, which is made if there is none. -/
inductive Puts (source heap heap' : Heap σ) (container : Value) (part : String) (stored : Value) :
    Value → Prop
  | item {items : List Value} {index : Nat}
      (found : heap.items? container = some items)
      (position : position? items.length (partOffset part) = some index)
      (found' : heap'.items? container = some ((padded (index + 1) items).set index stored))
      (alters : Alters {container} heap heap') :
      Puts source heap heap' container part stored (items[index]?.getD .null)
  | replaced {content : HashTable} {bucket key old : Value} {before after : List Value}
      (found : heap.table? container = some content)
      (place : content.buckets[Text.bucketOf part content.buckets.length]? = some bucket)
      (there : heap.items? bucket = some (before ++ key :: old :: after))
      (sought : source.seekKey (before ++ key :: old :: after) part = .found before.length)
      (found' : heap'.table? container = some content)
      (there' : heap'.items? bucket = some (before ++ key :: stored :: after))
      (alters : Alters {bucket} heap heap') :
      Puts source heap heap' container part stored old
  | inserted {content : HashTable} {slot : Nat} {bucket name : Value} {before after : List Value}
      (found : heap.table? container = some content)
      (isSlot : slot = Text.bucketOf part (heap.bucketsOf content).length)
      (bucketFor : heap.BucketFor (heap.bucketsOf content) slot bucket (before ++ after))
      (sought : source.seekKey (before ++ after) part = .missing before.length)
      (fresh : ¬heap.Issued name) (named : heap'.payload name = .text part)
      (found' : heap'.table? container =
        some { buckets := (heap.bucketsOf content).set slot bucket, pairs := content.pairs + 1 })
      (there' : heap'.items? bucket = some (before ++ name :: stored :: after))
      (alters : Alters {container, bucket} heap heap') :
      Puts source heap heap' container part stored .null

theorem seekKey_nil (heap : Heap σ) (text : String) : heap.seekKey [] text = .missing 0 := by
  simp [seekKey, Records.seek, Records.firstNotBelow]

theorem BucketFor.of_ne_nil {buckets : List Value} {slot : Nat}
    (bucketFor : heap.BucketFor buckets slot bucket items) (nonempty : items ≠ []) :
    buckets[slot]? = some bucket ∧ heap.items? bucket = some items := by
  cases bucketFor with
  | there place found => exact ⟨place, found⟩
  | made => contradiction

/-- A bucket is a new array, or it is in the table. -/
theorem BucketFor.not_issued_or_mem {buckets : List Value} {slot : Nat}
    (bucketFor : heap.BucketFor buckets slot bucket items) :
    ¬heap.Issued bucket ∨ bucket ∈ buckets := by
  cases bucketFor with
  | there place => exact .inr (List.mem_of_getElem? place)
  | made fresh => exact .inl fresh

/-- What is written in a table may be written: the table, and its bucket if it was there. -/
theorem BucketFor.mem_storeCells (isTable : heap.table? table = some content) {slot : Nat}
    (bucketFor : heap.BucketFor (heap.bucketsOf content) slot bucket items)
    (present : bucket ≠ .null) (issued : heap.Issued value)
    (member : value ∈ ({table, bucket} : Set Value)) : value ∈ heap.storeCells table := by
  rcases member with rfl | rfl
  · exact .inl rfl
  · have inside := bucketFor.not_issued_or_mem.resolve_left (not_not.mpr issued)
    refine .inr ⟨kind_of_table? isTable, ?_⟩
    rw [children_of_table? isTable]
    by_cases nonempty : content.buckets = []
    · rw [bucketsOf, nonempty] at inside
      exact absurd (List.eq_of_mem_replicate inside) present
    · rwa [bucketsOf_of_ne_nil nonempty] at inside

/-- The pair of the text is there: its value is replaced. -/
theorem ends_replacePair (consistent : heap.Consistent)
    (isTable : heap.table? table = some content)
    (prepares : heap.Prepares table content
      (Text.bucketOf text (heap.bucketsOf content).length) bucket items heap')
    {index : Nat} (sought : heap'.seekKey items text = .found index) (value : Value) :
    EndsWithin bound (heap'.setItem bucket value (index + 1 : Nat)) fun result =>
      ∃ stored, heap.OwnsAs (heap.storeCells table) value stored ∧
        Puts heap heap result.2 table text stored result.1 := by
  obtain ⟨before, key, old, after, rfl, rfl⟩ :=
    exists_pair_at (Records.lt_length_of_seek_found sought)
  have nonempty : before ++ key :: old :: after ≠ [] := by simp
  obtain rfl := prepares.unchanged nonempty
  obtain ⟨place, there⟩ := prepares.bucketFor.of_ne_nil nonempty
  rw [bucketsOf_of_items? place there] at place
  have split : before ++ key :: old :: after = (before ++ [key]) ++ old :: after := by simp
  have storing := ends_setItem_at bound consistent (split ▸ there) value
  rw [List.length_append, List.length_singleton] at storing
  apply storing.mono
  rintro ⟨answer, last⟩ ⟨rfl, rewriting⟩
  have owning : Alters ∅ heap' (heap'.own value).2 := .own consistent value
  have issuedTable := consistent.issued (isLive_of_table? isTable)
  have issuedBucket := consistent.issued (isLive_of_items? there)
  have writing := Alters.of_rewrites rewriting
  refine ⟨_, ⟨heap', .refl _ consistent, rfl⟩, .replaced isTable place there sought ?_ ?_ ?_⟩
  · rw [writing.table? (owning.issued issuedTable) (ne_of_table?_of_items? isTable there),
      owning.table? issuedTable (Set.notMem_empty _), isTable]
  · rw [rewriting.items? ((owning.items? issuedBucket (Set.notMem_empty _)).trans (split ▸ there))]
    simp
  · exact writing.afterMaking owning

/-- The pair of the text is missing: a pair is inserted. -/
theorem ends_addPair (consistent : heap.Consistent) (isTable : heap.table? table = some content)
    {key : Value} (scratch : key.isScratch = true) (named : heap.payload key = .text text)
    (prepares : heap.Prepares table content
      (Text.bucketOf text (heap.bucketsOf content).length) bucket items heap')
    {index : Nat} (sought : heap'.seekKey items text = .missing index) (value : Value)
    (room : items.length + 2 ≤ bound) :
    EndsWithin bound (do
      let (_, expanded) ← heap'.expandItems bucket index 2
      let (_, keyed) ← expanded.setItem bucket key index
      (keyed.countPair table).setItem bucket value (index + 1 : Nat)) fun result =>
      ∃ stored, heap.OwnsAs (heap.storeCells table) value stored ∧
        Puts heap heap result.2 table text stored result.1 := by
  obtain ⟨before, after, rfl, rfl⟩ := exists_cut_at (Records.le_length_of_seek_missing sought)
  have sought' : heap.seekKey (before ++ after) text = .missing before.length := by
    by_cases empty : before ++ after = []
    · obtain ⟨rfl, rfl⟩ := List.append_eq_nil_iff.mp empty
      exact seekKey_nil heap text
    · rwa [prepares.unchanged empty] at sought
  have issuedKey : heap.Issued key :=
    consistent.issued (isLive_of_payload_text named)
  have apart : key ∉ ({table} : Set Value) := by
    rintro rfl
    rw [table?_eq_some_iff, named] at isTable
    contradiction
  have present := ne_null_of_items? prepares.isBucket
  apply (ends_insertPair prepares.alters.consistent prepares.isTable prepares.isBucket scratch
    ((prepares.alters.payload issuedKey apart).trans named) value room).mono
  rintro ⟨answer, last⟩ ⟨rfl, storing, counted, name, stored, fresh, named', ⟨between, changing,
    owned⟩, whole⟩
  have preparing : Alters {table, bucket} heap heap' := prepares.alters.mono fun _ => .inl
  refine ⟨stored, ⟨between, (preparing.trans changing fun _ => id).mono
    (prepares.bucketFor.mem_storeCells isTable present), owned⟩, ?_⟩
  exact .inserted isTable rfl prepares.bucketFor sought'
    (fun issued => fresh (prepares.alters.issued issued)) named' counted whole
    (preparing.trans storing fun _ => id)

/-- Storing under a scratch key asks for room for the buckets if there are none, and for one pair
more in the bucket. -/
theorem ends_setKey (consistent : heap.Consistent) (isTable : heap.table? table = some content)
    {key : Value} (scratch : key.isScratch = true) (named : heap.payload key = .text text)
    (value : Value) (slots : content.buckets = [] → max heap.config.hashBuckets 1 ≤ bound)
    (room : ∀ {bucket items}, heap.BucketFor (heap.bucketsOf content)
      (Text.bucketOf text (heap.bucketsOf content).length) bucket items →
        items.length + 2 ≤ bound) :
    EndsWithin bound (heap.setKey table key value) fun result =>
      ∃ stored, heap.OwnsAs (heap.storeCells table) value stored ∧
        Puts heap heap result.2 table text stored result.1 := by
  simp only [setKey, isTable, text_of_payload_text named]
  apply (ends_allocatedBuckets slots).bind
  rintro buckets rfl
  obtain ⟨items, prepares⟩ := exists_prepares consistent isTable
    (Text.bucketOf text (heap.bucketsOf content).length)
  revert prepares
  generalize (heap.setTable table { content with buckets := heap.bucketsOf content }).bucketArray
    table { content with buckets := heap.bucketsOf content }
      (Text.bucketOf text (heap.bucketsOf content).length) = prepared
  obtain ⟨bucket, ready⟩ := prepared
  intro prepares
  simp only [prepares.isBucket]
  cases sought : ready.seekKey items text with
  | found index => exact ends_replacePair consistent isTable prepares sought value
  | missing index =>
      exact ends_addPair consistent isTable scratch named prepares sought value
        (room prepares.bucketFor)

end Heap

end CountedHeap
