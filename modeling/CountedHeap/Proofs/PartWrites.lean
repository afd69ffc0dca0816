import CountedHeap.Proofs.PathWalks
import CountedHeap.Proofs.Placements

/-!
Contract: storing under a part in a container.

The key of a hash is made as a scratch string first.  A search asks the keys of one bucket for their
texts, and no cell holds a scratch value, so the search finds what it would have found before.

Owns:
- the pairs of a hash that are searched for a text, and what their search depends on;
- what may be made before a write and changed after it;
- storing under a part as one item or one pair, and the room that it may need.

Does not own: the walk to the container.
-/

namespace CountedHeap

/-- Bisection depends on what is asked between its bounds only. -/
theorem Records.firstNotBelow_congr {below below' : Nat → Bool} {low high : Nat}
    (same : ∀ number, low ≤ number → number < high → below' number = below number) :
    Records.firstNotBelow below' low high = Records.firstNotBelow below low high := by
  fun_induction Records.firstNotBelow below low high with
  | case1 low high less middle isBelow inductionHypothesis =>
      have asked : below' middle = true := (same middle (by omega) (by omega)).trans isBelow
      rw [Records.firstNotBelow, if_pos less]
      exact (if_pos asked).trans
        (inductionHypothesis fun number least most => same number (by omega) most)
  | case2 low high less middle notBelow inductionHypothesis =>
      have asked : ¬below' middle = true := by rwa [same middle (by omega) (by omega)]
      rw [Records.firstNotBelow, if_pos less]
      exact (if_neg asked).trans
        (inductionHypothesis fun number least most => same number least (by omega))
  | case3 low high notLess => rw [Records.firstNotBelow, if_neg notLess]

namespace Heap

variable {σ : Signature} {heap heap' heap'' source source' : Heap σ}
  {sequence table bucket value stored : Value} {items : List Value} {content : HashTable}
  {part text : String}

/-! ## What is searched -/

/-- The place of a pair among keys and values, from the place of its key among the keys. -/
def ofKeys : Seek → Seek
  | .found record => .found (record * 2)
  | .missing record => .missing (record * 2)

/-- A search of pairs is a search among the texts of the keys. -/
theorem seekKey_eq_seek (items : List Value) (text : String) :
    heap.seekKey items text =
      ofKeys (Records.seek ((keysOf items).map heap.text) 1 (Ord.compare · text)) := by
  have leads : ∀ (expected : Ordering) {record : Nat}, record < items.length / 2 →
      Records.leads items 2 (fun key => Ord.compare (heap.text key) text) expected record =
        Records.leads ((keysOf items).map heap.text) 1 (Ord.compare · text) expected record := by
    intro expected record inside
    rw [Records.leads, ← getElem?_keysOf items record inside, Records.leads, Nat.mul_one,
      List.getElem?_map, Option.any_map]
  simp only [seekKey, Records.seek, show max 2 1 = 2 from rfl, show max 1 1 = 1 from rfl,
    List.length_map, length_keysOf, Nat.div_one]
  rw [Records.firstNotBelow_congr fun record _ inside => leads .lt inside]
  generalize Records.firstNotBelow _ 0 (items.length / 2) = border
  by_cases inside : border < items.length / 2
  · rw [leads .eq inside]
    split <;> simp only [ofKeys, Nat.mul_one]
  · simp only [decide_eq_false inside, Bool.false_and, Bool.false_eq_true, if_false, ofKeys,
      Nat.mul_one]

/-- A search of pairs depends on the texts of the keys only. -/
theorem seekKey_congr {items' : List Value}
    (same : (keysOf items').map heap'.text = (keysOf items).map heap.text) (text : String) :
    heap'.seekKey items' text = heap.seekKey items text := by
  rw [seekKey_eq_seek, same, ← seekKey_eq_seek]

/-- The bucket of a hash in which a text is searched. -/
def bucketFor? (heap : Heap σ) (table : Value) (text : String) : Option Value :=
  (heap.table? table).bind fun content =>
    content.buckets[Text.bucketOf text content.buckets.length]?

/-- The pairs of a hash among which a text is searched, one after another. -/
def searched (heap : Heap σ) (table : Value) (text : String) : List Value :=
  ((heap.bucketFor? table text).bind heap.items?).getD []

/-- The longest list for which storing under a text may need room: the buckets of a hash that has
none yet, or the pairs that are searched and one pair more. -/
def pairRoom (heap : Heap σ) (table : Value) (text : String) : Nat :=
  max (if (heap.children table).isEmpty then max heap.config.hashBuckets 1 else 0)
    ((heap.searched table text).length + 2)

/-- The longest list for which storing under a part may need room: a sequence up to the position, or
what a pair needs. -/
def partRoom (heap : Heap σ) (container : Value) (part : String) : Nat :=
  match heap.items? container with
  | some items => ((position? items.length (partOffset part)).map (· + 1)).getD 0
  | none => heap.pairRoom container part

theorem searched_of_items? (found : heap.table? table = some content)
    (place : content.buckets[Text.bucketOf text content.buckets.length]? = some bucket)
    (there : heap.items? bucket = some items) : heap.searched table text = items := by
  rw [searched, bucketFor?, found, Option.bind_some, place, Option.bind_some, there,
    Option.getD_some]

/-- What is stored under a text is found among the pairs that are searched. -/
theorem getText_eq (table : Value) (text : String) :
    heap.getText table text =
      match heap.seekKey (heap.searched table text) text with
      | .found index => (heap.searched table text)[index + 1]?.getD .null
      | .missing _ => .null := by
  unfold getText locate? searched bucketFor?
  cases heap.table? table with
  | none => simp [seekKey_nil]
  | some content =>
      dsimp only [Option.bind_some]
      cases content.buckets[Text.bucketOf text content.buckets.length]? with
      | none => simp [seekKey_nil]
      | some bucket =>
          dsimp only [Option.bind_some]
          cases found : heap.items? bucket with
          | none => simp [seekKey_nil]
          | some items =>
              dsimp only [Option.getD_some]
              cases heap.seekKey items text with
              | missing index => rfl
              | found index =>
                  dsimp only
                  simp only [getItem, found, position?_ofNat]

theorem childAt_of_table? (found : heap.table? table = some content) (part : String) :
    heap.childAt table part =
      match heap.seekKey (heap.searched table part) part with
      | .found index => (heap.searched table part)[index + 1]?.getD .null
      | .missing _ => .null := by
  rw [childAt, kind_of_table? found]
  exact getText_eq table part

/-! ## Changes around a write -/

theorem bucketFor?_of_table? (found : heap.table? table = some content) (text : String) :
    heap.bucketFor? table text =
      content.buckets[Text.bucketOf text content.buckets.length]? := by
  rw [bucketFor?, found, Option.bind_some]

/-- The bucket that gets a pair is the one that is searched. -/
theorem BucketFor.searched_eq (isTable : heap.table? table = some content)
    (bucketFor : heap.BucketFor (heap.bucketsOf content)
      (Text.bucketOf text (heap.bucketsOf content).length) bucket items) :
    heap.searched table text = items := by
  cases bucketFor with
  | there place found =>
      rw [bucketsOf_of_items? place found] at place
      exact searched_of_items? isTable place found
  | made fresh noArray =>
      rw [searched, bucketFor?_of_table? isTable]
      by_cases empty : content.buckets = []
      · rw [empty]
        rfl
      · rw [bucketsOf_of_ne_nil empty] at noArray
        cases place : content.buckets[Text.bucketOf text content.buckets.length]? with
        | none => rfl
        | some old => rw [Option.bind_some, noArray old place, Option.getD_none]

/-- The texts of the searched keys may be read in another heap that gives them the same. -/
theorem Puts.inSource {container answer : Value}
    (puts : Puts source heap heap' container part stored answer)
    (texts : ∀ key ∈ keysOf (heap.searched container part), source'.text key = source.text key) :
    Puts source' heap heap' container part stored answer := by
  cases puts with
  | item found position found' alters => exact .item found position found' alters
  | replaced found place there sought found' there' alters =>
      rw [searched_of_items? found place there] at texts
      refine .replaced found place there ?_ found' there' alters
      rw [seekKey_congr (List.map_congr_left texts), sought]
  | inserted found isSlot bucketFor sought fresh named found' there' alters =>
      subst isSlot
      rw [bucketFor.searched_eq found] at texts
      refine .inserted found rfl bucketFor ?_ fresh named found' there' alters
      rw [seekKey_congr (List.map_congr_left texts), sought]

/-- The array of a bucket is not one of the cells that were made before. -/
theorem BucketFor.afterMaking {between : Heap σ} {buckets : List Value} {slot : Nat}
    (bucketFor : between.BucketFor buckets slot bucket items) (consistent : heap.Consistent)
    (making : Alters ∅ heap between)
    (sequences : ∀ {value items}, between.items? value = some items → heap.Issued value) :
    heap.BucketFor buckets slot bucket items := by
  cases bucketFor with
  | there place found =>
      refine .there place ?_
      rw [← making.items? (sequences found) (Set.notMem_empty _), found]
  | made new noArray =>
      refine .made (fun issued => new (making.issued issued)) fun old place => ?_
      cases array : heap.items? old with
      | none => rfl
      | some items =>
          have issued := consistent.issued (isLive_of_items? array)
          have still := (making.items? issued (Set.notMem_empty _)).trans array
          rw [noArray old place] at still
          contradiction

/-- Cells that are no sequences may have been made before the write. -/
theorem Puts.afterMaking {between : Heap σ} {container answer : Value}
    (puts : Puts source between heap' container part stored answer)
    (consistent : heap.Consistent) (making : Alters ∅ heap between)
    (hashBuckets : between.config.hashBuckets = heap.config.hashBuckets)
    (sequences : ∀ {value items}, between.items? value = some items → heap.Issued value)
    (issued : heap.Issued container) : Puts source heap heap' container part stored answer := by
  have isTable : between.table? container = heap.table? container :=
    making.table? issued (Set.notMem_empty _)
  have items?_eq : ∀ {value items}, between.items? value = some items →
      heap.items? value = some items := fun found => by
    rw [← making.items? (sequences found) (Set.notMem_empty _), found]
  cases puts with
  | item found position found' alters =>
      exact .item (items?_eq found) position found' (alters.afterMaking making)
  | replaced found place there sought found' there' alters =>
      exact .replaced (isTable ▸ found) place (items?_eq there) sought found' there'
        (alters.afterMaking making)
  | @inserted content _ _ _ _ _ found isSlot bucketFor sought fresh named found' there' alters =>
      have buckets : between.bucketsOf content = heap.bucketsOf content := by
        rw [bucketsOf, bucketsOf, hashBuckets]
      rw [buckets] at isSlot bucketFor found'
      exact .inserted (isTable ▸ found) isSlot (bucketFor.afterMaking consistent making sequences)
        sought (fun old => fresh (making.issued old)) named found' there'
        (alters.afterMaking making)

/-- What is changed after the write is nothing of what the write has written. -/
theorem Puts.later {container answer : Value}
    (puts : Puts source heap heap' container part stored answer)
    (altered : ∀ {cells}, Alters cells heap heap' → Alters cells heap heap'')
    (site : heap''.payload container = heap'.payload container)
    (below : ∀ {holder value}, value ∈ heap'.children holder → heap'.isLive value = true →
      heap'.kind value ≠ .hash → heap''.payload value = heap'.payload value) :
    Puts source heap heap'' container part stored answer := by
  have sequence : ∀ {holder value items}, value ∈ heap'.children holder →
      heap'.items? value = some items → heap''.items? value = some items := by
    intro holder value items child found
    have notHash : heap'.kind value ≠ .hash := by
      intro isHash
      have sequential := isSequence_of_items? found
      rw [isHash] at sequential
      contradiction
    rw [Heap.items?, below child (isLive_of_items? found) notHash, ← Heap.items?, found]
  cases puts with
  | item found position found' alters =>
      refine .item found position ?_ (altered alters)
      rw [Heap.items?, site, ← Heap.items?, found']
  | @replaced content bucket _ _ _ _ found place there sought found' there' alters =>
      have child : bucket ∈ heap'.children container := by
        rw [children_of_table? found']
        exact List.mem_of_getElem? place
      refine .replaced found place there sought ?_ (sequence child there') (altered alters)
      rw [Heap.table?, site, ← Heap.table?, found']
  | @inserted content slot bucket name _ _ found isSlot bucketFor sought fresh named found' there'
      alters =>
      have inside : slot < (heap.bucketsOf content).length := by
        rw [isSlot]
        exact Text.bucketOf_lt _ (List.length_pos_of_ne_nil (bucketsOf_ne_nil _))
      have child : bucket ∈ heap'.children container := by
        rw [children_of_table? found']
        exact List.mem_set inside _
      have child' : name ∈ heap'.children bucket := by
        rw [children_of_items? there']
        simp
      refine .inserted found isSlot bucketFor sought fresh ?_ ?_ (sequence child there')
        (altered alters)
      · have notHash : heap'.kind name ≠ .hash := by
          rw [kind, named]
          show Kind.text ≠ .hash
          decide
        rw [below child' (isLive_of_payload_text named) notHash, named]
      · rw [Heap.table?, site, ← Heap.table?, found']

/-! ## Storing under a part -/

/-- No cell holds a scratch value, so the texts of long-lived values do not change with the pool. -/
theorem text_scratchString (proper : heap.Proper False) (characters : String) {value : Value}
    (durable : value.isScratch = false) :
    (heap.scratchString characters).2.text value = heap.text value := by
  have kept : value ∈ {value : Value | value.isScratch = false} := durable
  apply textWithin_congr (fun member => ?_) (fun _ child => (proper.storable child).durable) kept
  apply payload_createScratch_of_ne
  rintro rfl
  contradiction

/-- What is searched is held by a bucket. -/
theorem exists_holder_of_mem_searched (member : value ∈ heap.searched table text) :
    ∃ bucket, value ∈ heap.children bucket := by
  unfold searched at member
  cases found : (heap.bucketFor? table text).bind heap.items? with
  | none =>
      rw [found] at member
      contradiction
  | some items =>
      rw [found] at member
      obtain ⟨bucket, -, found⟩ := Option.bind_eq_some_iff.mp found
      exact ⟨bucket, by rwa [children_of_items? found]⟩

theorem slots_le_pairRoom (isTable : heap.table? table = some content) (text : String)
    (none : content.buckets = []) : max heap.config.hashBuckets 1 ≤ heap.pairRoom table text := by
  rw [pairRoom, children_of_table? isTable, none]
  exact le_max_left _ _

/-- There is room for one pair more in the bucket, also while the key is in the pool. -/
theorem room_of_bucketFor (isTable : heap.table? table = some content)
    (bucketFor : (heap.scratchString text).2.BucketFor (heap.bucketsOf content)
      (Text.bucketOf text (heap.bucketsOf content).length) bucket items) :
    items.length + 2 ≤ heap.pairRoom table text := by
  refine le_trans (Nat.add_le_add_right ?_ 2) (le_max_right _ _)
  cases bucketFor with
  | made => exact Nat.zero_le _
  | there place found =>
      have different : bucket ≠ (heap.scratchString text).1 := by
        rintro rfl
        rw [Heap.items?, payload_scratchString] at found
        contradiction
      have kept : (heap.scratchString text).2.payload bucket = heap.payload bucket :=
        payload_createScratch_of_ne different
      rw [Heap.items?, kept, ← Heap.items?] at found
      exact (BucketFor.there place found).searched_eq isTable ▸ le_rfl

/-- Storing under a text in a hash, where the key is a scratch string that is made first. -/
theorem ends_putText (proper : heap.Proper False) (isTable : heap.table? table = some content)
    (value : Value) :
    EndsWithin (heap.pairRoom table text)
      ((heap.scratchString text).2.setKey table (heap.scratchString text).1 value)
      fun result => ∃ stored, heap.OwnsAs (heap.storeCells table) value stored ∧
        Puts heap heap result.2 table text stored result.1 := by
  have consistent := proper.toConsistent
  have making : Alters ∅ heap (heap.scratchString text).2 := .scratchString consistent text
  have issued := consistent.issued (isLive_of_table? isTable)
  have isTable' : (heap.scratchString text).2.table? table = some content :=
    (making.table? issued (Set.notMem_empty _)).trans isTable
  apply (ends_setKey making.consistent isTable' rfl (payload_scratchString text) value
    (slots_le_pairRoom isTable text) (room_of_bucketFor isTable)).mono
  rintro ⟨answer, last⟩ ⟨stored, owns, puts⟩
  have cells : (heap.scratchString text).2.storeCells table = heap.storeCells table := by
    rw [storeCells, storeCells, kind, children, making.payload issued (Set.notMem_empty _), ← kind,
      ← children]
  have sequences : ∀ {value items}, (heap.scratchString text).2.items? value = some items →
      heap.Issued value := by
    intro value items found
    have different : value ≠ (heap.scratchString text).1 := by
      rintro rfl
      rw [Heap.items?, payload_scratchString] at found
      contradiction
    have same : (heap.scratchString text).2.payload value = heap.payload value :=
      payload_createScratch_of_ne different
    rw [Heap.items?, same, ← Heap.items?] at found
    exact consistent.issued (isLive_of_items? found)
  refine ⟨stored, (cells ▸ owns).before (making.mono fun _ => False.elim) fun _ => id, ?_⟩
  apply (puts.afterMaking consistent making rfl sequences issued).inSource
  intro key member
  obtain ⟨bucket, child⟩ := exists_holder_of_mem_searched (mem_of_mem_keysOf member)
  exact (text_scratchString proper text (proper.storable child).durable).symm

/-- Storing an element under a part in a sequence that has a place for it. -/
theorem ends_putItem (consistent : heap.Consistent) (found : heap.items? sequence = some items)
    (place : heap.hasPlaceFor sequence part = true) (value : Value) :
    EndsWithin (heap.partRoom sequence part) (heap.setItem sequence value (partOffset part))
      fun result => ∃ stored, heap.OwnsAs (heap.storeCells sequence) value stored ∧
        Puts heap heap result.2 sequence part stored result.1 := by
  rw [hasPlaceFor_of_items? found, Option.isSome_iff_exists] at place
  obtain ⟨index, position⟩ := place
  have room : heap.partRoom sequence part = index + 1 := by
    simp only [partRoom, found, position, Option.map_some, Option.getD_some]
  rw [room]
  apply (ends_setItem consistent found value position).mono
  rintro ⟨answer, last⟩ ⟨rfl, rewriting⟩
  have owning : Alters ∅ heap (heap.own value).2 := .own consistent value
  have issued := consistent.issued (isLive_of_items? found)
  have found' := (owning.items? issued (Set.notMem_empty _)).trans found
  refine ⟨_, ⟨heap, .refl _ consistent, rfl⟩, .item found position (rewriting.items? found') ?_⟩
  exact (Alters.of_rewrites rewriting).afterMaking owning

/-- Storing under a part in a container that has a place for it puts one item or one pair there, or
there is no room. -/
theorem ends_putChild (proper : heap.Proper False) {container : Value}
    (place : heap.hasPlaceFor container part = true) (value : Value) :
    EndsWithin (heap.partRoom container part) (heap.putChild container part value) fun result =>
      ∃ stored, heap.OwnsAs (heap.storeCells container) value stored ∧
        Puts heap heap result.2 container part stored result.1 := by
  unfold putChild
  rcases hash_or_items_of_isMulti (isMulti_of_hasPlaceFor place) with isHash | ⟨items, found⟩
  · obtain ⟨content, isTable⟩ := exists_table?_of_kind isHash
    have single : heap.items? container = none := by
      rw [Heap.items?, table?_eq_some_iff.mp isTable]
      rfl
    simp only [isHash, partRoom, single]
    exact ends_putText proper isTable value
  · have sequential := isSequence_of_items? found
    cases form : heap.kind container with
    | array | program => exact ends_putItem proper.toConsistent found place value
    | null | text | int | real | exec | hash | file =>
        rw [form] at sequential
        contradiction

end Heap

end CountedHeap
