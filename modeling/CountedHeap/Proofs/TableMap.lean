import CountedHeap.Proofs.Counters
import CountedHeap.Proofs.Room
import CountedHeap.Proofs.Scripts
import Mathlib.Data.Finmap

/-!
Contract: a hash is a finite map from texts to values.

The map is kept beside a run: storing a key inserts its text, deleting a key erases it, and
nothing else changes it.  Other tables may be in any state; the events may be anything that
does not write this one.

Owns:
- `Contents` and how an event changes them;
- `Tracks`, the runs of a program that makes a hash and keeps it;
- every answer about the hash is the answer of the map;
- a key that the map keeps and the hash loses: its handle was not issued, or a word could not
  count its holders.
-/

namespace CountedHeap

variable {σ : Signature}

/-- What a hash is meant to hold: values by texts. -/
abbrev Contents := Finmap fun _ : String => Value

/-- The contents after an event. -/
def Contents.after (contents : Contents) (heap : Heap σ) (table : Value) : Event σ → Contents
  | .request (.setKey other key value) =>
      if other = table then
        contents.insert (heap.text key) (heap.ownedUnder table key value)
      else contents
  | .request (.eraseKey other key) =>
      if other = table then contents.erase (heap.text key) else contents
  | _ => contents

/-- An event that stores a key or deletes one in a table, or writes neither the table nor one
of its buckets. -/
inductive Event.Respects (heap : Heap σ) (table : Value) : Event σ → Prop
  | set {key value : Value} (fixed : (heap.kind key).hasFixedText = true) :
      Respects heap table (.request (.setKey table key value))
  | erase {key : Value} : Respects heap table (.request (.eraseKey table key))
  | other {event : Event σ} (elsewhere : event.site heap ≠ table)
      (outside : ¬heap.HasBucket table (event.site heap)) : Respects heap table event

/-- The runs in which a program makes a hash and keeps it, with the contents it is meant to
have. -/
inductive Session.Tracks (config : Config) (table : Value) : Session σ → Contents → Prop
  | hash {session : Session σ} {heap : Heap σ}
      (reaches : Reaches (fun _ _ => True) (.start config) session)
      (made : session.heap.hash = (table, heap)) :
      Tracks config table { session with heap } ∅
  | event {session session' : Session σ} {contents : Contents} {event : Event σ}
      (before : Tracks config table session contents)
      (respects : event.Respects session.heap table) (moves : session.Moves event session')
      (kept : table ∈ session'.owners ∨ session'.heap.isLive table = true) :
      Tracks config table session' (contents.after session.heap table event)

namespace Heap

variable {heap heap' : Heap σ} {held : Multiset Value} {table : Value} {contents : Contents}

/-- A hash in order whose entries are the contents. -/
def Represents (heap : Heap σ) (table : Value) (contents : Contents) : Prop :=
  ∃ content, heap.table? table = some content ∧ heap.OrderedTable content ∧
    ∀ text, (heap.entries table).lookup text = contents.lookup text

/-! ## Lists with one entry for each text -/

/-- Looking up a text in a list that has an entry more. -/
theorem lookup_insert_entry {front back : List (String × Value)} {text : String} {value : Value}
    (distinct : ((front ++ (text, value) :: back).map (·.1)).Nodup) (other : String) :
    (front ++ (text, value) :: back).lookup other =
      if other = text then some value else (front ++ back).lookup other := by
  split
  next same =>
    subst same
    exact lookup_of_nodup distinct
  next different =>
    simp only [List.lookup_append, List.lookup_cons, beq_eq_false_iff_ne.mpr different]

/-- In the list without an entry its text is not found. -/
theorem lookup_erase_entry {front back : List (String × Value)} {text : String} {value : Value}
    (distinct : ((front ++ (text, value) :: back).map (·.1)).Nodup) :
    (front ++ back).lookup text = none := by
  refine lookup_eq_none_iff_not_mem.mpr fun member => ?_
  rw [List.map_append, List.map_cons, List.nodup_middle, List.nodup_cons] at distinct
  exact distinct.1 (by rwa [List.map_append] at member)

/-! ## What storing and deleting do -/

theorem represents_hash (sound : heap.Sound held) : heap.hash.2.Represents heap.hash.1 ∅ := by
  have found := table?_hash sound
  refine ⟨{}, found, orderedTable_empty, fun text => ?_⟩
  rw [entries_eq_flatMap found, Finmap.lookup_empty]
  rfl

theorem Represents.setKey (sound : heap.Sound held) (represents : heap.Represents table contents)
    {key value answer : Value} (fixed : (heap.kind key).hasFixedText = true)
    (issuedKey : heap.Issued key) (issuedValue : heap.Issued value)
    (done : heap.setKey table key value = .ok (answer, heap')) :
    answer = (contents.lookup (heap.text key)).getD .null ∧
      heap'.Represents table
        (contents.insert (heap.text key) (heap.ownedUnder table key value)) := by
  obtain ⟨content, found, ordered, looked⟩ := represents
  obtain ⟨content', front, back, found', ordered', entries', entries⟩ :=
    entries_setKey sound found ordered fixed issuedKey issuedValue done
  have distinct := ordered.nodup_entries found
  have distinct' := ordered'.nodup_entries found'
  rw [entries'] at distinct'
  have others : ∀ text, text ≠ heap.text key →
      (front ++ back).lookup text = contents.lookup text := by
    intro text different
    rw [← looked]
    rcases entries with present | ⟨-, absent⟩
    · rw [present] at distinct ⊢
      rw [lookup_insert_entry distinct, if_neg different]
    · rw [absent]
  refine ⟨?_, content', found', ordered', fun text => ?_⟩
  · rw [← looked]
    rcases entries with present | ⟨rfl, absent⟩
    · rw [present] at distinct ⊢
      rw [lookup_of_nodup distinct, Option.getD_some]
    · rw [absent, lookup_erase_entry distinct', Option.getD_none]
  · rw [entries', lookup_insert_entry distinct']
    split
    next same => rw [same, Finmap.lookup_insert]
    next different => rw [Finmap.lookup_insert_of_ne _ different, others text different]

theorem Represents.eraseKey (sound : heap.Sound held)
    (represents : heap.Represents table contents) (key : Value) :
    (heap.eraseKey table key).1 = (contents.lookup (heap.text key)).getD .null ∧
      (heap.eraseKey table key).2.Represents table (contents.erase (heap.text key)) := by
  obtain ⟨content, found, ordered, looked⟩ := represents
  obtain ⟨content', found', ordered', entries⟩ := entries_eraseKey sound found ordered
  have distinct := ordered.nodup_entries found
  rcases entries with ⟨front, back, present, erased⟩ | ⟨absent, unchanged⟩
  · rw [present] at distinct
    refine ⟨?_, content', found', ordered', fun text => ?_⟩
    · rw [← looked, present, lookup_of_nodup distinct, Option.getD_some]
    · rw [erased]
      by_cases same : text = heap.text key
      · rw [same, lookup_erase_entry distinct, Finmap.lookup_erase]
      · rw [Finmap.lookup_erase_ne same, ← looked, present, lookup_insert_entry distinct,
          if_neg same]
  · rw [unchanged, ← looked, absent]
    refine ⟨rfl, content, found, ordered, fun text => ?_⟩
    rw [looked]
    by_cases same : text = heap.text key
    · rw [same, Finmap.lookup_erase, ← looked, absent]
    · rw [Finmap.lookup_erase_ne same]

/-! ## What everything else does -/

/-- Neither a table nor its buckets are written through another container. -/
theorem Sound.not_mem_storeCells (sound : heap.Sound held) {site : Value} {content : HashTable}
    (found : heap.table? table = some content) (elsewhere : site ≠ table)
    (outside : ¬heap.HasBucket table site) :
    table ∉ heap.storeCells site ∧
      ∀ bucket ∈ content.buckets, bucket ≠ .null → bucket ∉ heap.storeCells site := by
  constructor
  · rintro (same | ⟨isHash, child⟩)
    · exact elsewhere same.symm
    · obtain ⟨other, otherFound⟩ := exists_table?_of_kind isHash
      rw [children_of_table? otherFound] at child
      have present : table ≠ .null := by
        rintro rfl
        simp [table?, payload, Payload.table?] at found
      exact sound.bucket_ne_table otherFound child present found rfl
  · rintro bucket member present (same | ⟨isHash, child⟩)
    · exact outside ⟨same ▸ present, content, found, same ▸ member⟩
    · obtain ⟨other, otherFound⟩ := exists_table?_of_kind isHash
      rw [children_of_table? otherFound] at child
      exact present ((sound.tables found).alone elsewhere otherFound member child)

/-- No hash is a scratch value. -/
theorem Sound.durable_table (sound : heap.Sound held) {content : HashTable}
    (found : heap.table? table = some content) : table.isScratch = false := by
  by_contra scratch
  rcases sound.pool (eq_true_of_ne_false scratch) (isLive_of_table? found) with plain | isArray
  · rw [table?_eq_some_iff.mp found] at plain
    contradiction
  · rw [kind_of_table? found] at isArray
    contradiction

theorem Represents.keeps {site : Value} (keeps : Keeps (heap.storeCells site) heap heap')
    (sound : heap.Sound held) (represents : heap.Represents table contents)
    (elsewhere : site ≠ table) (outside : ¬heap.HasBucket table site) :
    heap'.Represents table contents := by
  obtain ⟨content, found, ordered, looked⟩ := represents
  obtain ⟨tableUntouched, bucketsUntouched⟩ := sound.not_mem_storeCells found elsewhere outside
  refine ⟨content, keeps.table? sound found tableUntouched,
    keeps.orderedTable sound found ordered fun member => bucketsUntouched _ member, fun text => ?_⟩
  rw [keeps.entries sound found ordered tableUntouched fun member => bucketsUntouched _ member]
  exact looked text

/-- The entries of a table that is left stay: so do its buckets and their items. -/
theorem Thins.entries {spared : Set Value} (thins : Thins spared heap heap')
    {content : HashTable} (found' : heap'.table? table = some content)
    (ordered : heap.OrderedTable content) : heap'.entries table = heap.entries table := by
  have found := thins.table? found'
  rw [entries_eq_flatMap found, entries_eq_flatMap found']
  refine List.flatMap_congr fun bucket member => ?_
  obtain ⟨slot, place⟩ := List.mem_iff_getElem?.mp member
  rw [← children_of_table? found] at member
  have payload' := thins.payload_child (isLive_of_table? found') member
  rcases ordered.bucket place with rfl | ⟨items, payload, inOrder⟩
  · rfl
  · have bucketLive : heap'.isLive bucket = true :=
      isLive_of_payload_ne (by rw [payload', payload]; simp)
    rw [bucketEntries_of_payload payload, bucketEntries_of_payload (payload'.trans payload)]
    refine named_congr inOrder.fixed fun key inside => sameKey_of_payload ?_
    exact thins.payload_child bucketLive (by rwa [Heap.children, payload])

theorem Represents.thins {spared : Set Value} (thins : Thins spared heap heap')
    (represents : heap.Represents table contents) (live : heap'.isLive table = true) :
    heap'.Represents table contents := by
  obtain ⟨content, found, ordered, looked⟩ := represents
  have found' : heap'.table? table = some content := by
    rwa [table?_eq_some_iff, thins.payload live, ← table?_eq_some_iff]
  refine ⟨content, found', thins.orderedTable found' ordered, fun text => ?_⟩
  rw [thins.entries found' ordered]
  exact looked text

/-! ## Answers -/

/-- What a program sees of a hash. -/
structure Answers (heap : Heap σ) (table : Value) (contents : Contents) : Prop where
  getKey : ∀ key, heap.getKey table key = (contents.lookup (heap.text key)).getD .null
  hasKey : ∀ key, heap.hasKey table key = true ↔ heap.text key ∈ contents
  setKey : ∀ key value answer heap', (heap.kind key).hasFixedText = true → heap.Issued key →
    heap.Issued value → heap.setKey table key value = .ok (answer, heap') →
      answer = (contents.lookup (heap.text key)).getD .null
  /-- Storing a key answers if there is room for the buckets and for one pair more. -/
  room : ∀ key value, (heap.kind key).hasFixedText = true → heap.Issued key →
    heap.Issued value → max heap.config.hashBuckets 1 ≤ elementLimit →
      2 * contents.keys.card + 2 ≤ elementLimit →
        ∃ answer heap', heap.setKey table key value = .ok (answer, heap')
  eraseKey : ∀ key,
    (heap.eraseKey table key).1 = (contents.lookup (heap.text key)).getD .null
  pairCount : heap.pairCount table = contents.keys.card
  size : heap.size table = contents.keys.card
  keys : ∃ items, (heap.keys table).2.items? (heap.keys table).1 = some items ∧
    items.length = contents.keys.card
  values : ∃ items, (heap.values table).2.items? (heap.values table).1 = some items ∧
    items.length = contents.keys.card

theorem items?_arrayOf (sound : heap.Sound held) (items : List Value)
    (issued : ∀ item ∈ items, heap.Issued item) :
    ∃ owned, (heap.arrayOf items).2.items? (heap.arrayOf items).1 = some owned ∧
      owned.length = items.length := by
  obtain ⟨owning, -⟩ := Step.ownAll sound issued
  have found := cell?_create_self owning.sound.toConsistent (.array (ownAll items heap).1)
  refine ⟨(ownAll items heap).1, ?_, length_ownAll items heap⟩
  rw [arrayOf, items?, payload_of_cell? found]
  rfl

theorem Represents.length_entries (represents : heap.Represents table contents) :
    (heap.entries table).length = contents.keys.card := by
  obtain ⟨content, found, ordered, looked⟩ := represents
  have same : contents.keys = ((heap.entries table).map (·.1)).toFinset := by
    ext text
    rw [Finmap.mem_keys, ← Finmap.lookup_isSome, ← looked, List.mem_toFinset,
      Option.isSome_iff_ne_none, ne_eq, lookup_eq_none_iff_not_mem, not_not]
  rw [same, List.toFinset_card_of_nodup (ordered.nodup_entries found), List.length_map]

theorem Represents.answers (sound : heap.Sound held)
    (represents : heap.Represents table contents) : heap.Answers table contents := by
  have card := represents.length_entries
  have pairs : ∀ part : Value × Value → Value, ((heap.pairs table).map part).length =
      contents.keys.card := fun part => by
    rw [List.length_map, ← Heap.length_entries, card]
  obtain ⟨content, found, ordered, looked⟩ := id represents
  refine ⟨fun key => ?_, fun key => ?_,
    fun key value answer heap' fixed issuedKey issuedValue done =>
    (represents.setKey sound fixed issuedKey issuedValue done).1,
    fun key value fixed issuedKey issuedValue slots room => ?_,
    fun key => (represents.eraseKey sound key).1, ?_, ?_, ?_, ?_⟩
  · rw [Heap.getKey, ordered.getText_eq found, looked]
  · rw [Heap.hasKey, ordered.isSome_locate? found, looked, Finmap.lookup_isSome]
  · rw [← card, ← ordered.pairs_eq found] at room
    exact exists_setKey sound found ordered fixed issuedKey issuedValue slots room
  · rw [Heap.pairCount, found, ← card, ← ordered.pairs_eq found]
  · rw [Heap.size, table?_eq_some_iff.mp found, ← card, ← ordered.pairs_eq found]
  · obtain ⟨items, itemsFound, length⟩ := items?_arrayOf sound
      ((heap.pairs table).map (·.1)) fun key member => by
        obtain ⟨pair, inside, rfl⟩ := List.mem_map.mp member
        exact (issued_pairs sound inside).1
    exact ⟨items, itemsFound, length.trans (pairs _)⟩
  · obtain ⟨items, itemsFound, length⟩ := items?_arrayOf sound
      ((heap.pairs table).map (·.2)) fun value member => by
        obtain ⟨pair, inside, rfl⟩ := List.mem_map.mp member
        exact (issued_pairs sound inside).2
    exact ⟨items, itemsFound, length.trans (pairs _)⟩

end Heap

namespace Session

variable {config : Config} {table : Value} {session session' : Session σ} {contents : Contents}
  {event : Event σ} {leaked leaked' : Multiset Value}

/-- An event that respects a hash keeps it and its contents together. -/
theorem represents_after (sound : session.Sound leaked)
    (represents : session.heap.Represents table contents)
    (respects : event.Respects session.heap table) (moves : session.Moves event session')
    (kept : table ∈ session'.owners ∨ session'.heap.isLive table = true) :
    session'.heap.Represents table (contents.after session.heap table event) := by
  cases respects with
  | @set key value fixed =>
      cases moves with
      | request issued done =>
          obtain ⟨answer, done⟩ := Heap.settle_eq_ok done
          rw [Contents.after, if_pos rfl]
          exact (represents.setKey sound.heap fixed (issued key (by simp [Request.handles]))
            (issued value (by simp [Request.handles])) done).2
  | @erase key =>
      cases moves with
      | request _ done =>
          rw [Contents.after, if_pos rfl, ← Except.ok.inj done]
          exact (represents.eraseKey sound.heap key).2
  | other elsewhere outside =>
      have unchanged : contents.after session.heap table event = contents := by
        unfold Contents.after
        split
        · exact if_neg elsewhere
        · exact if_neg elsewhere
        · rfl
      rw [unchanged]
      obtain ⟨leaked', outcome⟩ := moves.outcome sound
      rcases outcome.cells with ⟨keeps, -⟩ | thins
      · exact represents.keeps keeps sound.heap elsewhere outside
      · refine represents.thins thins (kept.elim (fun owned => ?_) id)
        obtain ⟨content, found, -⟩ := represents
        exact thins.spares ⟨owned, sound.heap.durable_table found⟩ (Heap.isLive_of_table? found)

/-- Of a hash that a program made and keeps, every answer is the answer of the finite map that
the stored and the deleted keys make up. -/
theorem tracks_answers (tracks : Tracks config table session contents) :
    session.heap.Answers table contents := by
  have all : ∃ leaked, session.Sound leaked ∧ session.heap.Represents table contents := by
    induction tracks with
    | hash reaches made =>
        obtain ⟨leaked, sound⟩ := reaches.sound (sound_start config)
        have making := Heap.Step.hash sound.heap
        have represents := Heap.represents_hash sound.heap
        rw [made] at making represents
        exact ⟨leaked, ⟨making.sound, sound.durable⟩, represents⟩
    | event _ respects moves kept inductionHypothesis =>
        obtain ⟨leaked, sound, represents⟩ := inductionHypothesis
        obtain ⟨leaked', outcome⟩ := moves.outcome sound
        exact ⟨leaked', outcome.sound, represents_after sound represents respects moves kept⟩
  obtain ⟨leaked, sound, represents⟩ := all
  exact represents.answers sound.heap

/-- One computed event more. -/
theorem Tracks.next {contents : Contents} (before : Tracks config table session contents)
    (event : Event σ) (respects : event.Respects session.heap table)
    (possible : (session.next? event).isSome = true)
    (live : ((session.next? event).get possible).heap.isLive table = true) :
    Tracks config table ((session.next? event).get possible)
      (contents.after session.heap table event) :=
  .event before respects (moves_of_next? (Option.some_get possible).symm) (.inr live)

theorem isSome_naming :
    (run? (fun _ _ => True) (.start {})
      [(.request (.string "k") : Event .bare)]).isSome = true := by
  decide +kernel

/-- A hash that holds nothing but itself, after a sweep. -/
theorem answers_of_cyclic_hash : ∃ (session : Session .bare) (contents : Contents),
    Tracks {} (.cell ⟨1, 0⟩) session contents ∧
      contents.lookup "k" = some (.cell ⟨1, 0⟩) ∧ contents.keys.card = 1 ∧
      session.heap.Answers (.cell ⟨1, 0⟩) contents := by
  have made := Tracks.hash (reaches_of_run? .refl (Option.some_get isSome_naming).symm)
    (rfl : Heap.hash _ = (.cell ⟨1, 0⟩, _))
  have stored := made.next (.request (.setKey (.cell ⟨1, 0⟩) (.cell ⟨0, 0⟩) (.cell ⟨1, 0⟩)))
    (.set (by decide +kernel)) (by decide +kernel) (by decide +kernel)
  have swept := stored.next (.sweep .full) (.other (by decide) fun bucket => bucket.1 rfl)
    (by decide +kernel) (by decide +kernel)
  exact ⟨_, _, swept, by decide +kernel, by decide +kernel, tracks_answers swept⟩

/-- A hash that is held, and a number. -/
def emptyTableScript : List (Event .bare) :=
  [.request .hash, .retain (.cell ⟨0, 0⟩), .request (.int 7)]

theorem isSome_emptyTable :
    (run? (fun _ _ => True) (.start { hashBuckets := 1 }) emptyTableScript).isSome = true := by
  decide +kernel

/-- A hash that is held, with one bucket and in it a number under a string. -/
def oneKeyScript : List (Event .bare) :=
  emptyTableScript ++ [.request (.string "k"),
    .request (.setKey (.cell ⟨0, 0⟩) (.cell ⟨2, 0⟩) (.cell ⟨1, 0⟩))]

theorem isSome_oneKey :
    (run? (fun _ _ => True) (.start { hashBuckets := 1 }) oneKeyScript).isSome = true := by
  decide +kernel

/-- A hash loses the number under a key whose handle was made by hand: the key is of no kind, and
becomes a string when the next cell is made.  It loses the number under a string that was retained
and released equally often, if that was more often than a word can count. -/
theorem table_loses_uncounted_keys :
    (∃ session : Session .bare,
      Reaches (fun _ _ => True) (.start { hashBuckets := 1 }) session ∧
      session.owners = {.cell ⟨0, 0⟩} ∧
      (session.heap.kind (.cell ⟨3, 0⟩)).hasFixedText = true ∧
      ((session.heap.setKey (.cell ⟨0, 0⟩) (.cell ⟨3, 0⟩) (.cell ⟨1, 0⟩)).toOption.map
        fun (_, stored) => (stored.getKey (.cell ⟨0, 0⟩) .null,
          (stored.string "b").2.getKey (.cell ⟨0, 0⟩) .null)) =
            some (.cell ⟨1, 0⟩, .null)) ∧
    ∃ session : Session .bare,
      Reaches (fun _ _ => True) (.start { hashBuckets := 1 }) session ∧
      session.owners = {.cell ⟨0, 0⟩} ∧
      session.heap.getText (.cell ⟨0, 0⟩) "k" = .cell ⟨1, 0⟩ ∧
      ∃ balanced, balanced = (Heap.release · (.cell ⟨2, 0⟩))^[largestWord + 1]
          ((Heap.retainWord · (.cell ⟨2, 0⟩))^[largestWord + 1] session.heap) ∧
        (balanced.sweep .full).2.isLive (.cell ⟨0, 0⟩) = true ∧
        (balanced.sweep .full).2.getText (.cell ⟨0, 0⟩) "k" = .null := by
  refine ⟨⟨_, reaches_of_run? .refl (Option.some_get isSome_emptyTable).symm, by decide +kernel⟩,
    _, reaches_of_run? .refl (Option.some_get isSome_oneKey).symm, by decide +kernel,
    by decide +kernel, _, rfl, ?_⟩
  rw [Heap.release_of_saturated _ _ (Nat.le_succ _)]
  decide +kernel

end Session

end CountedHeap
