import CountedHeap.Proofs.Search
import CountedHeap.Proofs.Steps
import Mathlib.Data.List.Nodup

/-!
Contract: a hash as a list of texts with values.

Owns:
- `entries`, the texts and values of a hash in the order of a walk;
- in an ordered table every text occurs once, and looking it up in the list is what looking it
  up in the table comes to;
- how the entries change when one bucket is written.
-/

namespace CountedHeap.Heap

variable {σ : Signature} {heap heap' : Heap σ} {held held' : Multiset Value}

/-- Keys by their texts, with their values. -/
def named (heap : Heap σ) (pairs : List (Value × Value)) : List (String × Value) :=
  pairs.map fun pair => (heap.text pair.1, pair.2)

/-- The texts and values in one bucket. -/
def bucketEntries (heap : Heap σ) (bucket : Value) : List (String × Value) :=
  heap.named (heap.bucketPairs bucket)

/-- The texts and values of a hash, in the order of a walk. -/
def entries (heap : Heap σ) (table : Value) : List (String × Value) :=
  heap.named (heap.pairs table)

theorem length_entries (heap : Heap σ) (table : Value) :
    (heap.entries table).length = (heap.pairs table).length :=
  List.length_map _

theorem named_pairUp_append {before : List Value} (even : before.length % 2 = 0)
    (after : List Value) : heap.named (pairUp (before ++ after)) =
      heap.named (pairUp before) ++ heap.named (pairUp after) := by
  rw [named, pairUp_append even, List.map_append]
  rfl

theorem named_pairUp_cons {before : List Value} (even : before.length % 2 = 0)
    (key value : Value) (after : List Value) :
    heap.named (pairUp (before ++ key :: value :: after)) =
      heap.named (pairUp before) ++ (heap.text key, value) :: heap.named (pairUp after) :=
  named_pairUp_append even _

/-- Pairs whose keys keep their texts. -/
theorem named_congr {items : List Value}
    (fixed : ∀ key ∈ keysOf items, (heap.kind key).hasFixedText = true)
    (same : ∀ key ∈ items, SameKey heap heap' key key) :
    heap'.named (pairUp items) = heap.named (pairUp items) := by
  refine List.map_congr_left fun pair inside => ?_
  have isKey : pair.1 ∈ keysOf items := List.mem_map_of_mem inside
  rw [(same pair.1 (mem_of_mem_keysOf isKey) (fixed pair.1 isKey)).2]

theorem entries_eq_flatMap {table : Value} {content : HashTable}
    (found : heap.table? table = some content) :
    heap.entries table = content.buckets.flatMap heap.bucketEntries := by
  rw [entries, named, pairs, found, List.map_flatMap]
  rfl

theorem bucketEntries_of_payload {bucket : Value} {items : List Value}
    (content : heap.payload bucket = .array items) :
    heap.bucketEntries bucket = heap.named (pairUp items) := by
  rw [bucketEntries, bucketPairs_of_payload content]

theorem texts_of_payload {bucket : Value} {items : List Value}
    (content : heap.payload bucket = .array items) :
    (heap.bucketEntries bucket).map (·.1) = (keysOf items).map heap.text := by
  rw [bucketEntries_of_payload content, named, keysOf, List.map_map, List.map_map]
  rfl

theorem bucketEntries_null : heap.bucketEntries .null = [] := rfl

/-- The entries of a hash, cut at one of its buckets. -/
theorem entries_cut {table bucket : Value} {content : HashTable} {slot : Nat}
    (found : heap.table? table = some content) (place : content.buckets[slot]? = some bucket) :
    heap.entries table = (content.buckets.take slot).flatMap heap.bucketEntries ++
      (heap.bucketEntries bucket ++
        (content.buckets.drop (slot + 1)).flatMap heap.bucketEntries) := by
  obtain ⟨inside, rfl⟩ := List.getElem?_eq_some_iff.mp place
  rw [entries_eq_flatMap found, ← List.flatMap_cons, ← List.drop_eq_getElem_cons inside,
    ← List.flatMap_append, List.take_append_drop]

/-! ## Texts in ordered tables -/

theorem OrderedTable.placed {content : HashTable} (ordered : heap.OrderedTable content)
    {slot : Nat} {bucket : Value} (place : content.buckets[slot]? = some bucket) {text : String}
    (member : text ∈ (heap.bucketEntries bucket).map (·.1)) :
    Text.bucketOf text content.buckets.length = slot := by
  rcases ordered.bucket place with rfl | ⟨items, payload, inOrder⟩
  · simp [bucketEntries_null] at member
  · rw [texts_of_payload payload] at member
    obtain ⟨key, keyMember, rfl⟩ := List.mem_map.mp member
    exact inOrder.placed key keyMember

theorem OrderedTable.nodup_bucket {content : HashTable} (ordered : heap.OrderedTable content)
    {bucket : Value} (member : bucket ∈ content.buckets) :
    ((heap.bucketEntries bucket).map (·.1)).Nodup := by
  obtain ⟨slot, place⟩ := List.mem_iff_getElem?.mp member
  rcases ordered.bucket place with rfl | ⟨items, payload, inOrder⟩
  · exact List.nodup_nil
  · rw [texts_of_payload payload]
    refine inOrder.ascending.imp ?_
    rintro text _ less rfl
    exact String.lt_irrefl text less

/-- Every text occurs once. -/
theorem OrderedTable.nodup_entries {table : Value} {content : HashTable}
    (ordered : heap.OrderedTable content) (found : heap.table? table = some content) :
    ((heap.entries table).map (·.1)).Nodup := by
  rw [entries_eq_flatMap found, List.map_flatMap, List.nodup_flatMap]
  refine ⟨fun bucket member => ordered.nodup_bucket member, ?_⟩
  refine List.pairwise_iff_getElem.mpr fun first second firstInside secondInside less => ?_
  refine List.disjoint_left.mpr fun text firstMember secondMember => ?_
  have here := ordered.placed (List.getElem?_eq_getElem firstInside) firstMember
  have there := ordered.placed (List.getElem?_eq_getElem secondInside) secondMember
  omega

/-- A text that is not in its own bucket is in none. -/
theorem OrderedTable.text_mem_iff {table bucket : Value} {content : HashTable}
    (ordered : heap.OrderedTable content) (found : heap.table? table = some content)
    {text : String}
    (place : content.buckets[Text.bucketOf text content.buckets.length]? = some bucket) :
    text ∈ (heap.entries table).map (·.1) ↔ text ∈ (heap.bucketEntries bucket).map (·.1) := by
  rw [entries_eq_flatMap found, List.map_flatMap, List.mem_flatMap]
  refine ⟨fun ⟨other, inside, member⟩ => ?_, fun member =>
    ⟨bucket, List.mem_of_getElem? place, member⟩⟩
  obtain ⟨slot, otherPlace⟩ := List.mem_iff_getElem?.mp inside
  rw [ordered.placed otherPlace member, otherPlace] at place
  obtain rfl := Option.some.inj place
  exact member

theorem lookup_eq_none_iff_not_mem {list : List (String × Value)} {text : String} :
    list.lookup text = none ↔ text ∉ list.map (·.1) := by
  simp only [List.lookup_eq_none_iff, List.mem_map, not_exists, not_and, bne_iff_ne, ne_eq]
  exact ⟨fun none entry member equal => none entry member equal.symm,
    fun outside entry member equal => outside entry member equal.symm⟩

/-- An entry that is in a list without repetitions is found. -/
theorem lookup_of_nodup {front back : List (String × Value)} {text : String} {value : Value}
    (distinct : ((front ++ (text, value) :: back).map (·.1)).Nodup) :
    (front ++ (text, value) :: back).lookup text = some value := by
  refine List.lookup_eq_some_iff.mpr ⟨front, back, rfl, fun entry member => ?_⟩
  rw [bne_iff_ne]
  intro equal
  rw [List.map_append, List.map_cons] at distinct
  refine (List.nodup_append.mp distinct).2.2 entry.1 (List.mem_map_of_mem member) text
    List.mem_cons_self equal.symm

/-- There is one way to cut such a list at a text. -/
theorem cut_unique {front back front' back' : List (String × Value)} {text : String}
    {value value' : Value} (distinct : ((front ++ (text, value) :: back).map (·.1)).Nodup)
    (equal : front ++ (text, value) :: back = front' ++ (text, value') :: back') :
    front = front' ∧ back = back' := by
  have same : value = value' := by
    have found := lookup_of_nodup distinct
    have distinct' := distinct
    rw [equal] at found distinct'
    rw [lookup_of_nodup distinct'] at found
    exact (Option.some.inj found).symm
  subst same
  rw [List.map_append, List.map_cons] at distinct
  have inFront : (text, value) ∉ front := fun member =>
    (List.nodup_append.mp distinct).2.2 text (List.mem_map_of_mem member) text
      List.mem_cons_self rfl
  have inBack : (text, value) ∉ back := fun member =>
    (List.nodup_cons.mp (List.nodup_append.mp distinct).2.1).1 (List.mem_map_of_mem member)
  obtain ⟨fronts, -, backs⟩ := (List.append_cons_inj_of_notMem inFront inBack).mp equal
  exact ⟨fronts, backs⟩

/-- Finding a text in an ordered table: the place of its pair in its bucket, or no place. -/
theorem OrderedTable.locate {table : Value} {content : HashTable}
    (ordered : heap.OrderedTable content) (found : heap.table? table = some content)
    (text : String) :
    (∃ bucket before key value after,
        content.buckets[Text.bucketOf text content.buckets.length]? = some bucket ∧
        heap.payload bucket = .array (before ++ key :: value :: after) ∧
        before.length % 2 = 0 ∧ heap.text key = text ∧
        heap.locate? table text = some (bucket, before.length) ∧
        (heap.entries table).lookup text = some value) ∨
      heap.locate? table text = none ∧ (heap.entries table).lookup text = none := by
  simp only [locate?, found]
  cases place : content.buckets[Text.bucketOf text content.buckets.length]? with
  | none =>
      refine .inr ⟨rfl, ?_⟩
      have empty : content.buckets = [] := by
        by_contra nonempty
        have inside := Text.bucketOf_lt text (List.length_pos_iff.mpr nonempty)
        exact absurd (List.getElem?_eq_none_iff.mp place) (by omega)
      rw [entries_eq_flatMap found, empty]
      rfl
  | some bucket =>
      have onlyHere := ordered.text_mem_iff found place
      rcases ordered.bucket place with rfl | ⟨items, payload, inOrder⟩
      · refine .inr ⟨rfl, lookup_eq_none_iff_not_mem.mpr fun member => ?_⟩
        simpa [bucketEntries_null] using onlyHere.mp member
      · have itemsFound : heap.items? bucket = some items := by
          rw [items?, payload]; rfl
        simp only [itemsFound]
        rcases inOrder.seekKey text with
          ⟨before, key, value, after, answer, whole, even, equal⟩ |
          ⟨before, after, answer, whole, even, less, more⟩
        · refine .inl ⟨bucket, before, key, value, after, rfl, by rw [payload, whole], even, equal,
            by simp only [answer], ?_⟩
          have here := bucketEntries_of_payload payload
          rw [whole, named_pairUp_cons even, equal] at here
          have cut := entries_cut found place
          have distinct := ordered.nodup_entries found
          rw [cut, here, List.append_assoc, List.cons_append, ← List.append_assoc] at distinct ⊢
          exact lookup_of_nodup distinct
        · refine .inr ⟨by simp only [answer], lookup_eq_none_iff_not_mem.mpr fun member => ?_⟩
          have inside := onlyHere.mp member
          rw [texts_of_payload payload, whole, keysOf_append even, List.map_append] at inside
          rcases List.mem_append.mp inside with front | back
          · obtain ⟨key, keyMember, equal⟩ := List.mem_map.mp front
            exact String.lt_irrefl _ (equal ▸ less key keyMember)
          · obtain ⟨key, keyMember, equal⟩ := List.mem_map.mp back
            exact String.lt_irrefl _ (equal ▸ more key keyMember)

/-! ## Questions about a table -/

theorem getItem_of_payload {sequence : Value} {items : List Value}
    (content : heap.payload sequence = .array items) (index : Nat) :
    heap.getItem sequence index = items[index]?.getD .null := by
  simp [getItem, items?, content, Payload.items?]

theorem OrderedTable.getText_eq {table : Value} {content : HashTable}
    (ordered : heap.OrderedTable content) (found : heap.table? table = some content)
    (text : String) :
    heap.getText table text = ((heap.entries table).lookup text).getD .null := by
  rcases ordered.locate found text with
    ⟨bucket, before, key, value, after, -, payload, -, -, located, looked⟩ | ⟨located, looked⟩
  · rw [getText, located, looked]
    simp only [Option.getD_some]
    rw [getItem_of_payload payload, List.getElem?_append_right (Nat.le_succ _)]
    simp
  · rw [getText, located, looked]
    rfl

theorem OrderedTable.isSome_locate? {table : Value} {content : HashTable}
    (ordered : heap.OrderedTable content) (found : heap.table? table = some content)
    (text : String) :
    (heap.locate? table text).isSome = ((heap.entries table).lookup text).isSome := by
  rcases ordered.locate found text with
    ⟨bucket, before, key, value, after, -, -, -, -, located, looked⟩ | ⟨located, looked⟩
  · rw [located, looked]
    rfl
  · rw [located, looked]
    rfl

theorem OrderedTable.pairs_eq {table : Value} {content : HashTable}
    (ordered : heap.OrderedTable content) (found : heap.table? table = some content) :
    content.pairs = (heap.entries table).length := by
  rw [ordered.pairs, length_entries, Heap.pairs, found]

/-! ## Tables that are left alone -/

/-- Buckets that are not written keep their entries. -/
theorem Keeps.bucketEntries {free : Set Value} (keeps : Keeps free heap heap')
    (sound : heap.Sound held) {table bucket : Value} {content : HashTable}
    (ordered : heap.OrderedTable content) (found : heap.table? table = some content)
    (member : bucket ∈ content.buckets) (untouched : bucket ≠ .null → bucket ∉ free) :
    heap'.bucketEntries bucket = heap.bucketEntries bucket := by
  obtain ⟨slot, place⟩ := List.mem_iff_getElem?.mp member
  rcases ordered.bucket place with rfl | ⟨items, payload, inOrder⟩
  · rfl
  · have present : bucket ≠ .null := by
      rintro rfl
      simp [Heap.payload] at payload
    have issued := sound.issued_bucket found member
    have payload' : heap'.payload bucket = .array items := by
      rw [keeps.payload issued fun written => absurd written (untouched present), payload]
    rw [bucketEntries_of_payload payload, bucketEntries_of_payload payload']
    exact named_congr inOrder.fixed fun key inside => keeps.sameKey (sound.issued_child
      (by rw [children, payload]; exact inside : key ∈ heap.children bucket))

theorem Keeps.table? {free : Set Value} (keeps : Keeps free heap heap') (sound : heap.Sound held)
    {table : Value} {content : HashTable} (found : heap.table? table = some content)
    (untouched : table ∉ free) : heap'.table? table = some content := by
  rw [table?_eq_some_iff, keeps.payload (sound.toConsistent.issued (isLive_of_table? found))
    (fun written => absurd written untouched), ← table?_eq_some_iff]
  exact found

/-- A table that is in order and is not written keeps its entries. -/
theorem Keeps.entries {free : Set Value} (keeps : Keeps free heap heap')
    (sound : heap.Sound held) {table : Value} {content : HashTable}
    (found : heap.table? table = some content) (ordered : heap.OrderedTable content)
    (untouched : table ∉ free)
    (bucketsUntouched : ∀ {bucket}, bucket ∈ content.buckets → bucket ≠ .null → bucket ∉ free) :
    heap'.entries table = heap.entries table := by
  rw [entries_eq_flatMap (keeps.table? sound found untouched), entries_eq_flatMap found]
  exact List.flatMap_congr fun bucket member =>
    keeps.bucketEntries sound ordered found member (bucketsUntouched member)

/-! ## Writing one bucket -/

theorem keysOf_cons {key value : Value} {before after : List Value}
    (even : before.length % 2 = 0) :
    keysOf (before ++ key :: value :: after) = keysOf before ++ key :: keysOf after :=
  keysOf_append even _

/-- A new pair goes between the smaller texts and the larger ones. -/
theorem OrderedBucket.insert {slots slot : Nat} {before after : List Value} {text : String}
    (ordered : heap.OrderedBucket slots slot (before ++ after)) (even : before.length % 2 = 0)
    (less : ∀ key ∈ keysOf before, heap.text key < text)
    (more : ∀ key ∈ keysOf after, text < heap.text key)
    (same : ∀ key ∈ before ++ after, SameKey heap heap' key key)
    {key : Value} (value : Value) (fixed : (heap'.kind key).hasFixedText = true)
    (isText : heap'.text key = text) (placed : Text.bucketOf text slots = slot) :
    heap'.OrderedBucket slots slot (before ++ key :: value :: after) := by
  have kept := ordered.transport (List.forall₂_same.mpr same)
  have keptText : ∀ other ∈ keysOf (before ++ after), heap'.text other = heap.text other :=
    fun other member => (same other (mem_of_mem_keysOf member) (ordered.fixed other member)).2
  have keys := keysOf_append even after
  have members : ∀ other ∈ keysOf (before ++ key :: value :: after),
      other = key ∨ other ∈ keysOf (before ++ after) := by
    intro other member
    rw [keysOf_cons even] at member
    rw [keys]
    rcases List.mem_append.mp member with front | back
    · exact .inr (List.mem_append_left _ front)
    · rcases List.mem_cons.mp back with equal | back
      · exact .inl equal
      · exact .inr (List.mem_append_right _ back)
  refine ⟨?_, fun other member => ?_, ?_, fun other member => ?_⟩
  · have whole := ordered.even
    simp only [List.length_append, List.length_cons] at whole ⊢
    omega
  · rcases members other member with rfl | old
    · exact fixed
    · exact kept.fixed other old
  · have ascending := kept.ascending
    rw [keys, List.map_append, List.pairwise_append] at ascending
    obtain ⟨front, back, across⟩ := ascending
    rw [keysOf_cons even, List.map_append, List.map_cons, isText]
    refine List.pairwise_append.mpr ⟨front, List.pairwise_cons.mpr ⟨?_, back⟩, ?_⟩
    · intro other member
      obtain ⟨otherKey, inside, rfl⟩ := List.mem_map.mp member
      rw [keptText otherKey (by rw [keys]; exact List.mem_append_right _ inside)]
      exact more otherKey inside
    · intro other member third thirdMember
      rcases List.mem_cons.mp thirdMember with rfl | later
      · obtain ⟨otherKey, inside, rfl⟩ := List.mem_map.mp member
        rw [keptText otherKey (by rw [keys]; exact List.mem_append_left _ inside)]
        exact less otherKey inside
      · exact across other member third later
  · rcases members other member with rfl | old
    · rw [isText, placed]
    · exact kept.placed other old

/-- The value of a pair does not matter for the order. -/
theorem OrderedBucket.replace {slots slot : Nat} {before after : List Value} {key old : Value}
    (ordered : heap.OrderedBucket slots slot (before ++ key :: old :: after))
    (even : before.length % 2 = 0) (new : Value) :
    heap.OrderedBucket slots slot (before ++ key :: new :: after) := by
  have keys : keysOf (before ++ key :: new :: after) = keysOf (before ++ key :: old :: after) := by
    rw [keysOf_cons even, keysOf_cons even]
  refine ⟨?_, keys ▸ ordered.fixed, keys ▸ ordered.ascending, keys ▸ ordered.placed⟩
  have whole := ordered.even
  simp only [List.length_append, List.length_cons] at whole ⊢
  exact whole

theorem OrderedBucket.erase {slots slot : Nat} {before after : List Value} {key value : Value}
    (ordered : heap.OrderedBucket slots slot (before ++ key :: value :: after))
    (even : before.length % 2 = 0) : heap.OrderedBucket slots slot (before ++ after) := by
  have sub : (keysOf (before ++ after)).Sublist (keysOf (before ++ key :: value :: after)) := by
    rw [keysOf_cons even, keysOf_append even]
    exact (List.sublist_cons_self _ _).append_left _
  refine ⟨?_, fun other member => ordered.fixed other (sub.subset member),
    ordered.ascending.sublist (sub.map _),
    fun other member => ordered.placed other (sub.subset member)⟩
  have whole := ordered.even
  simp only [List.length_append, List.length_cons] at whole ⊢
  omega

/-- The buckets of one table are none of another. -/
theorem Sound.bucket_ne (sound : heap.Sound held) {table other bucket bucket' : Value}
    {content otherContent : HashTable} (found : heap.table? table = some content)
    (otherFound : heap.table? other = some otherContent) (different : other ≠ table)
    (member : bucket ∈ content.buckets) (otherMember : bucket' ∈ otherContent.buckets)
    (present : bucket' ≠ .null) : bucket' ≠ bucket := by
  rintro rfl
  exact present ((sound.tables found).alone different otherFound member otherMember)

theorem Sound.bucket_ne_table (sound : heap.Sound held) {table bucket other : Value}
    {content otherContent : HashTable} (found : heap.table? table = some content)
    (member : bucket ∈ content.buckets) (present : bucket ≠ .null)
    (otherFound : heap.table? other = some otherContent) : bucket ≠ other := by
  rintro rfl
  have isArray := ((sound.tables found).array member).resolve_left present
  rw [kind_of_table? otherFound] at isArray
  contradiction

/-- The table, and the array of its bucket in one slot. -/
structure Place (heap : Heap σ) (table : Value) (content : HashTable) (slot : Nat)
    (bucket : Value) (items : List Value) : Prop where
  found : heap.table? table = some content
  place : content.buckets[slot]? = some bucket
  payload : heap.payload bucket = .array items

theorem Place.present {table bucket : Value} {content : HashTable} {slot : Nat}
    {items : List Value} (here : heap.Place table content slot bucket items) :
    bucket ≠ .null := by
  rintro rfl
  have payload := here.payload
  simp [Heap.payload] at payload

theorem Place.mem_children {table bucket value : Value} {content : HashTable} {slot : Nat}
    {items : List Value} (here : heap.Place table content slot bucket items)
    (isBucket : value = bucket) : value ∈ heap.children table := by
  rw [children_of_table? here.found, isBucket]
  exact List.mem_of_getElem? here.place

theorem Place.ordered {table bucket : Value} {content : HashTable} {slot : Nat}
    {items : List Value} (here : heap.Place table content slot bucket items)
    (ordered : heap.OrderedTable content) :
    heap.OrderedBucket content.buckets.length slot items := by
  rcases ordered.bucket here.place with absent | ⟨items', payload', inOrder⟩
  · exact absurd absent here.present
  · rw [here.payload] at payload'
    obtain rfl := Payload.array.inj payload'
    exact inOrder

/-- A bucket in another slot is neither the table nor the bucket that is written. -/
theorem Place.elsewhere {table bucket other : Value} {content : HashTable} {slot place : Nat}
    {items : List Value} (here : heap.Place table content slot bucket items)
    (sound : heap.Sound held) (otherPlace : content.buckets[place]? = some other)
    (different : place ≠ slot) (present : other ≠ .null) :
    other ∉ ({table, bucket} : Set Value) := by
  intro written
  rcases written with isTable | isBucket
  · exact sound.bucket_ne_table here.found (List.mem_of_getElem? otherPlace) present here.found
      isTable
  · obtain rfl := Set.mem_singleton_iff.mp isBucket
    exact different ((sound.tables here.found).distinct otherPlace here.place present)

/-- When one bucket is written, the entries of the others stay. -/
theorem Place.entries_write {table bucket : Value} {content : HashTable} {slot pairs : Nat}
    {items items' : List Value} (sound : heap.Sound held)
    (keeps : Keeps {table, bucket} heap heap') (ordered : heap.OrderedTable content)
    (here : heap.Place table content slot bucket items)
    (after : heap'.Place table { content with pairs } slot bucket items') :
    ∃ front back, heap.entries table = front ++ (heap.bucketEntries bucket ++ back) ∧
      heap'.entries table = front ++ (heap'.bucketEntries bucket ++ back) := by
  have same : ∀ {other place}, content.buckets[place]? = some other → place ≠ slot →
      heap'.bucketEntries other = heap.bucketEntries other :=
    fun otherPlace different => keeps.bucketEntries sound ordered here.found
      (List.mem_of_getElem? otherPlace) (here.elsewhere sound otherPlace different)
  have front : (content.buckets.take slot).flatMap heap'.bucketEntries =
      (content.buckets.take slot).flatMap heap.bucketEntries := by
    refine List.flatMap_congr fun other member => ?_
    obtain ⟨place, found⟩ := List.mem_iff_getElem?.mp member
    rw [List.getElem?_take] at found
    split at found
    next less => exact same found (by omega)
    next => contradiction
  have back : (content.buckets.drop (slot + 1)).flatMap heap'.bucketEntries =
      (content.buckets.drop (slot + 1)).flatMap heap.bucketEntries := by
    refine List.flatMap_congr fun other member => ?_
    obtain ⟨place, found⟩ := List.mem_iff_getElem?.mp member
    rw [List.getElem?_drop] at found
    exact same found (by omega)
  have afterwards := entries_cut after.found after.place
  rw [front, back] at afterwards
  exact ⟨_, _, entries_cut here.found here.place, afterwards⟩

/-- Every bucket is in order when the one that is written is. -/
theorem Place.bucket_write {table bucket : Value} {content : HashTable} {slot pairs : Nat}
    {items items' : List Value} (sound : heap.Sound held)
    (keeps : Keeps {table, bucket} heap heap') (ordered : heap.OrderedTable content)
    (here : heap.Place table content slot bucket items)
    (after : heap'.Place table { content with pairs } slot bucket items')
    (inOrder : heap'.OrderedBucket content.buckets.length slot items') {place : Nat}
    {other : Value} (otherPlace : content.buckets[place]? = some other) :
    other = .null ∨ ∃ items, heap'.payload other = .array items ∧
      heap'.OrderedBucket content.buckets.length place items := by
  by_cases isSlot : place = slot
  · subst isSlot
    have samePlace := after.place
    rw [otherPlace] at samePlace
    obtain rfl := Option.some.inj samePlace
    exact .inr ⟨items', after.payload, inOrder⟩
  · rcases ordered.bucket otherPlace with absent | ⟨otherItems, payload, otherOrder⟩
    · exact .inl absent
    · have otherIssued := sound.issued_bucket here.found (List.mem_of_getElem? otherPlace)
      have present : other ≠ .null := by
        rintro rfl
        simp [Heap.payload] at payload
      refine .inr ⟨otherItems, ?_, otherOrder.transport
        (List.forall₂_same.mpr fun key inside => keeps.sameKey (sound.issued_child
          (by rw [children, payload]; exact inside : key ∈ heap.children other)))⟩
      rw [keeps.payload otherIssued fun written =>
        absurd written (here.elsewhere sound otherPlace isSlot present), payload]

/-- The pairs of a table, cut at one of its buckets. -/
theorem length_pairs_cut {content : HashTable} {slot : Nat} {bucket : Value}
    (heap : Heap σ) (place : content.buckets[slot]? = some bucket) :
    (content.buckets.flatMap heap.bucketPairs).length =
      ((content.buckets.take slot).flatMap heap.bucketPairs).length +
        ((heap.bucketPairs bucket).length +
          ((content.buckets.drop (slot + 1)).flatMap heap.bucketPairs).length) := by
  obtain ⟨inside, rfl⟩ := List.getElem?_eq_some_iff.mp place
  rw [← List.length_append, ← List.flatMap_cons, ← List.drop_eq_getElem_cons inside,
    ← List.length_append, ← List.flatMap_append, List.take_append_drop]

/-- One bucket of a table is written, and the pairs are counted anew. -/
theorem TalliedTable.write {table bucket : Value} {content : HashTable} {slot pairs : Nat}
    {items items' : List Value} (sound : heap.Sound held)
    (keeps : Keeps {table, bucket} heap heap') (tallied : heap.TalliedTable content)
    (here : heap.Place table content slot bucket items)
    (payload : heap'.payload bucket = .array items')
    (count : pairs + items.length / 2 = content.pairs + items'.length / 2) :
    heap'.TalliedTable { content with pairs } := by
  have same : ∀ {other place}, content.buckets[place]? = some other → place ≠ slot →
      SameBucket heap heap' other other :=
    fun otherPlace different => keeps.sameBucket sound here.found
      (List.mem_of_getElem? otherPlace) (here.elsewhere sound otherPlace different)
  have front : ∀ other ∈ content.buckets.take slot, SameBucket heap heap' other other := by
    intro other member
    obtain ⟨place, found⟩ := List.mem_iff_getElem?.mp member
    rw [List.getElem?_take] at found
    split at found
    next less => exact same found (by omega)
    next => contradiction
  have back : ∀ other ∈ content.buckets.drop (slot + 1), SameBucket heap heap' other other := by
    intro other member
    obtain ⟨place, found⟩ := List.mem_iff_getElem?.mp member
    rw [List.getElem?_drop] at found
    exact same found (by omega)
  have before := length_pairs_cut heap here.place
  have after := length_pairs_cut heap' here.place
  rw [length_flatMap_of_sameBucket (List.forall₂_same.mpr front),
    length_flatMap_of_sameBucket (List.forall₂_same.mpr back), bucketPairs_of_payload payload,
    length_pairUp] at after
  rw [← tallied, bucketPairs_of_payload here.payload, length_pairUp] at before
  rw [TalliedTable, after]
  simp only
  omega

/-- One bucket of a table is written, and the pairs are counted anew.  The table stays in order
if the bucket does, and its entries change in the place of the bucket only. -/
theorem OrderedTable.write {table bucket : Value} {content : HashTable} {slot pairs : Nat}
    {items items' : List Value} (sound : heap.Sound held)
    (keeps : Keeps {table, bucket} heap heap') (ordered : heap.OrderedTable content)
    (here : heap.Place table content slot bucket items)
    (after : heap'.Place table { content with pairs } slot bucket items')
    (inOrder : heap'.OrderedBucket content.buckets.length slot items')
    (count : pairs + items.length / 2 = content.pairs + items'.length / 2) :
    heap'.OrderedTable { content with pairs } ∧ ∃ front back,
      heap.entries table = front ++ (heap.bucketEntries bucket ++ back) ∧
        heap'.entries table = front ++ (heap'.bucketEntries bucket ++ back) := by
  obtain ⟨front, back, before, afterwards⟩ :=
    Place.entries_write sound keeps ordered here after
  refine ⟨⟨?_, Place.bucket_write sound keeps ordered here after inOrder, ?_⟩, front, back,
    before, afterwards⟩
  · rw [keeps.hashBuckets]
    exact ordered.length
  · exact TalliedTable.write sound keeps ordered.pairs here after.payload count

/-- The keys of a bucket that is written keep their texts. -/
theorem Place.sameKey {table bucket : Value} {content : HashTable} {slot : Nat}
    {items : List Value} (here : heap.Place table content slot bucket items)
    (sound : heap.Sound held) {free : Set Value} (keeps : Keeps free heap heap') :
    ∀ key ∈ items, SameKey heap heap' key key := fun key inside =>
  keeps.sameKey (sound.issued_child
    (by rw [children, here.payload]; exact inside : key ∈ heap.children bucket))

/-- A pair with a new text is inserted. -/
theorem OrderedTable.insert {table bucket key value : Value} {content : HashTable} {slot : Nat}
    {before after : List Value} {text : String} (sound : heap.Sound held)
    (keeps : Keeps {table, bucket} heap heap') (ordered : heap.OrderedTable content)
    (here : heap.Place table content slot bucket (before ++ after))
    (there : heap'.Place table { content with pairs := content.pairs + 1 } slot bucket
      (before ++ key :: value :: after))
    (even : before.length % 2 = 0) (less : ∀ key ∈ keysOf before, heap.text key < text)
    (more : ∀ key ∈ keysOf after, text < heap.text key)
    (fixed : (heap'.kind key).hasFixedText = true) (isText : heap'.text key = text)
    (placed : Text.bucketOf text content.buckets.length = slot) :
    heap'.OrderedTable { content with pairs := content.pairs + 1 } ∧ ∃ front back,
      heap.entries table = front ++ back ∧
        heap'.entries table = front ++ (text, value) :: back := by
  have inOrder := here.ordered ordered
  have same := here.sameKey sound keeps
  have whole := named_congr inOrder.fixed same
  rw [named_pairUp_append even, named_pairUp_append even] at whole
  obtain ⟨frontSame, backSame⟩ := List.append_inj whole (by simp [named])
  obtain ⟨orderedAfter, front, back, entries, entries'⟩ := ordered.write sound keeps here there
    (inOrder.insert even less more same value fixed isText placed)
    (by simp only [List.length_append, List.length_cons]; omega)
  refine ⟨orderedAfter, front ++ heap.named (pairUp before), heap.named (pairUp after) ++ back,
    ?_, ?_⟩
  · rw [entries, bucketEntries_of_payload here.payload, named_pairUp_append even]
    simp only [List.append_assoc]
  · rw [entries', bucketEntries_of_payload there.payload, named_pairUp_cons even, isText, frontSame,
      backSame]
    simp only [List.append_assoc, List.cons_append]

/-- The value of a pair is replaced. -/
theorem OrderedTable.replace {table bucket key old new : Value} {content : HashTable} {slot : Nat}
    {before after : List Value} (sound : heap.Sound held)
    (keeps : Keeps {table, bucket} heap heap') (ordered : heap.OrderedTable content)
    (here : heap.Place table content slot bucket (before ++ key :: old :: after))
    (there : heap'.Place table content slot bucket (before ++ key :: new :: after))
    (even : before.length % 2 = 0) :
    heap'.OrderedTable content ∧ ∃ front back,
      heap.entries table = front ++ (heap.text key, old) :: back ∧
        heap'.entries table = front ++ (heap.text key, new) :: back := by
  have inOrder := here.ordered ordered
  have same := here.sameKey sound keeps
  have whole := named_congr inOrder.fixed same
  rw [named_pairUp_cons even, named_pairUp_cons even] at whole
  obtain ⟨frontSame, middle⟩ := List.append_inj whole (by simp [named])
  obtain ⟨headSame, backSame⟩ := List.cons_eq_cons.mp middle
  obtain ⟨orderedAfter, front, back, entries, entries'⟩ := ordered.write sound keeps here there
    ((inOrder.transport (List.forall₂_same.mpr same)).replace even new)
    (by simp only [List.length_append, List.length_cons])
  refine ⟨orderedAfter, front ++ heap.named (pairUp before), heap.named (pairUp after) ++ back,
    ?_, ?_⟩
  · rw [entries, bucketEntries_of_payload here.payload, named_pairUp_cons even]
    simp only [List.append_assoc, List.cons_append]
  · rw [entries', bucketEntries_of_payload there.payload, named_pairUp_cons even, frontSame,
      backSame, (Prod.mk.inj headSame).1]
    simp only [List.append_assoc, List.cons_append]

/-- A pair is erased. -/
theorem OrderedTable.erase {table bucket key value : Value} {content : HashTable} {slot : Nat}
    {before after : List Value} (sound : heap.Sound held)
    (keeps : Keeps {table, bucket} heap heap') (ordered : heap.OrderedTable content)
    (here : heap.Place table content slot bucket (before ++ key :: value :: after))
    (there : heap'.Place table { content with pairs := content.pairs - 1 } slot bucket
      (before ++ after))
    (even : before.length % 2 = 0) :
    heap'.OrderedTable { content with pairs := content.pairs - 1 } ∧ ∃ front back,
      heap.entries table = front ++ (heap.text key, value) :: back ∧
        heap'.entries table = front ++ back := by
  have inOrder := here.ordered ordered
  have same := here.sameKey sound keeps
  have whole := named_congr inOrder.fixed same
  rw [named_pairUp_cons even, named_pairUp_cons even] at whole
  obtain ⟨frontSame, middle⟩ := List.append_inj whole (by simp [named])
  obtain ⟨-, backSame⟩ := List.cons_eq_cons.mp middle
  -- The pair is there, so the count does not stop at zero.
  have positive : 0 < content.pairs := by
    rw [ordered.pairs_eq here.found, entries_cut here.found here.place,
      bucketEntries_of_payload here.payload, named_pairUp_cons even]
    simp only [List.length_append, List.length_cons]
    omega
  obtain ⟨orderedAfter, front, back, entries, entries'⟩ := ordered.write sound keeps here there
    ((inOrder.transport (List.forall₂_same.mpr same)).erase even)
    (by simp only [List.length_append, List.length_cons]; omega)
  refine ⟨orderedAfter, front ++ heap.named (pairUp before), heap.named (pairUp after) ++ back,
    ?_, ?_⟩
  · rw [entries, bucketEntries_of_payload here.payload, named_pairUp_cons even]
    simp only [List.append_assoc, List.cons_append]
  · rw [entries', bucketEntries_of_payload there.payload, named_pairUp_append even, frontSame,
      backSame]
    simp only [List.append_assoc]

end CountedHeap.Heap
