import CountedHeap.Proofs.OrderLaws
import CountedHeap.Proofs.WalkOrder

/-!
Contract: the comparison of hashes that hold the same.

The order of values goes through the buckets of a hash and not through its pairs.  A bucket that
lost its last pair is an empty array, one that never had a pair is absent, and a hash that was
never used has no buckets.  The comparison tells these apart although the pairs do not.

Owns:
- buckets whose pairs have the same texts and values compare equal;
- the entries of a bucket as a part of all entries;
- hashes with the same strings as keys and the same values compare equal just when the same slots
  have arrays.
-/

namespace CountedHeap

variable {σ : Signature}

namespace Heap

variable {heap : Heap σ} {table other : Value} {content content' : HashTable}

/-! ## Equal buckets -/

/-- Alternating lists whose keys are strings with the same texts, and whose values are the same,
compare equal item by item. -/
theorem forall₂_compare_of_named_eq {levels : Nat} {items items' : List Value}
    (even : items.length % 2 = 0) (even' : items'.length % 2 = 0)
    (strings : ∀ key ∈ keysOf items, heap.kind key = .text)
    (strings' : ∀ key ∈ keysOf items', heap.kind key = .text)
    (same : heap.named (pairUp items) = heap.named (pairUp items')) :
    List.Forall₂ (fun left right => heap.compareWithin levels left right = .eq) items items' := by
  have nil_of_named : ∀ {items : List Value}, items.length % 2 = 0 →
      heap.named (pairUp items) = [] → items = [] := by
    intro items even none
    have count := congrArg List.length none
    rw [named, List.length_map, length_pairUp, List.length_nil] at count
    exact List.length_eq_zero_iff.mp (by omega)
  induction items using pairUp.induct generalizing items' with
  | case1 key value rest inductionHypothesis =>
      rcases items' with _ | ⟨key', _ | ⟨value', rest'⟩⟩
      · exact absurd (nil_of_named even same) (List.cons_ne_nil _ _)
      · simp at even'
      · obtain ⟨first, others⟩ := List.cons_eq_cons.mp same
        obtain ⟨texts, rfl⟩ := Prod.mk.inj first
        obtain ⟨string, strings⟩ := List.forall_mem_cons.mp strings
        obtain ⟨string', strings'⟩ := List.forall_mem_cons.mp strings'
        rw [List.length_cons, List.length_cons] at even even'
        exact .cons (compareWithin_of_texts string string' texts)
          (.cons (compareWithin_self levels value)
            (inductionHypothesis (by omega) (by omega) strings strings' others))
  | case2 items notPair =>
      obtain rfl | ⟨item, rfl⟩ := eq_nil_or_singleton notPair
      · rw [nil_of_named even' same.symm]
        exact .nil
      · simp at even

/-! ## The buckets of tables with the same entries -/

/-- The entries of a bucket are those of the table whose texts belong to its slot. -/
theorem OrderedTable.bucketEntries_eq_filter (ordered : heap.OrderedTable content)
    (found : heap.table? table = some content) {slot : Nat} {bucket : Value}
    (place : content.buckets[slot]? = some bucket) :
    heap.bucketEntries bucket = (heap.entries table).filter fun entry =>
      Text.bucketOf entry.1 content.buckets.length = slot := by
  have elsewhere : ∀ {buckets : List Value}, (∀ bucket ∈ buckets, ∃ place,
      content.buckets[place]? = some bucket ∧ place ≠ slot) →
        (buckets.flatMap heap.bucketEntries).filter
          (fun entry => Text.bucketOf entry.1 content.buckets.length = slot) = [] := by
    intro buckets others
    rw [List.filter_eq_nil_iff]
    intro entry member
    obtain ⟨bucket, isBucket, inside⟩ := List.mem_flatMap.mp member
    obtain ⟨place, found, different⟩ := others bucket isBucket
    rw [ordered.placed found (List.mem_map_of_mem inside)]
    simpa using different
  rw [entries_cut found place, List.filter_append, List.filter_append, elsewhere, elsewhere,
    List.nil_append, List.append_nil, eq_comm, List.filter_eq_self]
  · intro entry member
    simpa using ordered.placed place (List.mem_map_of_mem member)
  · intro bucket member
    obtain ⟨index, found⟩ := List.mem_iff_getElem?.mp member
    rw [List.getElem?_drop] at found
    exact ⟨_, found, by omega⟩
  · intro bucket member
    obtain ⟨index, found⟩ := List.mem_iff_getElem?.mp member
    rw [List.getElem?_take] at found
    split at found
    next less => exact ⟨index, found, by omega⟩
    next => contradiction

/-- A slot without an array holds the absent value itself. -/
theorem OrderedTable.kind_bucket_iff (ordered : heap.OrderedTable content) {slot : Nat}
    {bucket : Value} (place : content.buckets[slot]? = some bucket) :
    heap.kind bucket = .null ↔ bucket = .null := by
  constructor
  · intro absent
    rcases ordered.bucket place with null | ⟨items, payload, -⟩
    · exact null
    · rw [kind, payload] at absent
      contradiction
  · rintro rfl
    exact kind_null

/-- The keys in a bucket are keys of the table. -/
theorem kind_of_mem_keysOf (found : heap.table? table = some content) {slot : Nat}
    {bucket : Value} {items : List Value} (place : content.buckets[slot]? = some bucket)
    (payload : heap.payload bucket = .array items)
    (strings : ∀ pair ∈ heap.pairs table, heap.kind pair.1 = .text) :
    ∀ key ∈ keysOf items, heap.kind key = .text := by
  intro key member
  obtain ⟨pair, inside, rfl⟩ := List.mem_map.mp member
  apply strings
  rw [Heap.pairs, found]
  refine List.mem_flatMap.mpr ⟨bucket, List.mem_of_getElem? place, ?_⟩
  rwa [bucketPairs_of_payload payload]

/-- Buckets in the same slot of tables with the same entries compare equal if both have arrays. -/
theorem OrderedTable.compareWithin_bucket (ordered : heap.OrderedTable content)
    (ordered' : heap.OrderedTable content') (found : heap.table? table = some content)
    (found' : heap.table? other = some content')
    (slots : content.buckets.length = content'.buckets.length)
    (same : heap.entries table = heap.entries other)
    (strings : ∀ pair ∈ heap.pairs table, heap.kind pair.1 = .text)
    (strings' : ∀ pair ∈ heap.pairs other, heap.kind pair.1 = .text) {slot levels : Nat}
    {bucket bucket' : Value} (place : content.buckets[slot]? = some bucket)
    (place' : content'.buckets[slot]? = some bucket') (present : bucket ≠ .null)
    (present' : bucket' ≠ .null) : heap.compareWithin (levels + 1) bucket bucket' = .eq := by
  by_cases identical : bucket = bucket'
  · rw [identical]
    exact compareWithin_self _ _
  obtain ⟨items, payload, inOrder⟩ := (ordered.bucket place).resolve_left present
  obtain ⟨items', payload', inOrder'⟩ := (ordered'.bucket place').resolve_left present'
  have entries : heap.named (pairUp items) = heap.named (pairUp items') := by
    rw [← bucketEntries_of_payload payload, ← bucketEntries_of_payload payload',
      ordered.bucketEntries_eq_filter found place, ordered'.bucketEntries_eq_filter found' place',
      same, slots]
  have below : List.Forall₂ (fun left right => heap.compareWithin levels left right = .eq) items
      items' :=
    forall₂_compare_of_named_eq inOrder.even inOrder'.even
      (kind_of_mem_keysOf found place payload strings)
      (kind_of_mem_keysOf found' place' payload' strings') entries
  rw [compareWithin_of_multi identical (by rw [kind, payload, kind, payload']; rfl)
    (by rw [kind, payload]; rfl), compareContainers, size, size, children, children, payload,
    payload']
  simp only [Payload.children]
  rw [Nat.compare_eq_eq.mpr below.length_eq, compareEach_eq_iff.mpr below]
  rfl

/-- Ordered tables with the same entries, whose keys are strings, compare equal just when the same
slots have arrays. -/
theorem OrderedTable.compare_eq_iff (ordered : heap.OrderedTable content)
    (ordered' : heap.OrderedTable content') (found : heap.table? table = some content)
    (found' : heap.table? other = some content')
    (same : heap.entries table = heap.entries other)
    (strings : ∀ pair ∈ heap.pairs table, heap.kind pair.1 = .text)
    (strings' : ∀ pair ∈ heap.pairs other, heap.kind pair.1 = .text) :
    heap.compare table other = .eq ↔
      List.Forall₂ (fun bucket bucket' => bucket = .null ↔ bucket' = .null) content.buckets
        content'.buckets := by
  by_cases identical : table = other
  · subst identical
    obtain rfl : content = content' := Option.some.inj (found.symm.trans found')
    simp [compare, compareWithin_self, List.forall₂_same]
  have counts : heap.size table = heap.size other := by
    rw [size, size, table?_eq_some_iff.mp found, table?_eq_some_iff.mp found']
    simp only
    rw [ordered.pairs_eq found, ordered'.pairs_eq found', same]
  rw [compare, compareLevels, compareWithin_of_multi identical
    ((kind_of_table? found).trans (kind_of_table? found').symm)
    (by rw [kind_of_table? found]; rfl), compareContainers,
    Nat.compare_eq_eq.mpr counts, Ordering.then, children_of_table? found,
    children_of_table? found', compareEach_eq_iff]
  simp only [List.forall₂_iff_get]
  refine and_congr_right fun slots => forall_congr' fun slot => forall_congr' fun inside =>
    forall_congr' fun inside' => ?_
  have place := List.getElem?_eq_getElem inside
  have place' := List.getElem?_eq_getElem inside'
  simp only [List.get_eq_getElem]
  by_cases absent : content.buckets[slot] = .null
  · rw [compareWithin_eq_iff_of_null ((ordered.kind_bucket_iff place).mpr absent),
      ordered'.kind_bucket_iff place']
    simp [absent]
  by_cases absent' : content'.buckets[slot] = .null
  · rw [compareWithin_swap, Ordering.swap_eq_eq,
      compareWithin_eq_iff_of_null ((ordered'.kind_bucket_iff place').mpr absent'),
      ordered.kind_bucket_iff place]
    simp [absent']
  · simp only [absent, absent', iff_true]
    exact ordered.compareWithin_bucket ordered' found found' slots same strings strings' place
      place' absent absent'

end Heap

namespace Session

variable {config : Config} {session : Session σ} {table other : Value}
  {content content' : HashTable}

/-- Two hashes that hold the same values under the same strings compare equal just when the same
slots have arrays.  So the comparison shows which slots ever had a pair, and nothing else of what
was stored and deleted on the way. -/
theorem compare_eq_iff_same_slots (written : session.WrittenByKeys config table)
    (written' : session.WrittenByKeys config other)
    (found : session.heap.table? table = some content)
    (found' : session.heap.table? other = some content')
    (same : session.heap.SameContents table other)
    (strings : ∀ pair ∈ session.heap.pairs table, session.heap.kind pair.1 = .text)
    (strings' : ∀ pair ∈ session.heap.pairs other, session.heap.kind pair.1 = .text) :
    session.heap.compare table other = .eq ↔
      List.Forall₂ (fun bucket bucket' => bucket = .null ↔ bucket' = .null) content.buckets
        content'.buckets := by
  obtain ⟨-, -, inOrder⟩ := written.inOrder
  obtain ⟨-, -, inOrder'⟩ := written'.inOrder
  have ordered := inOrder found
  have ordered' := inOrder' found'
  have entries := (written.sameContents_iff written' (Heap.kind_of_table? found)
    (Heap.kind_of_table? found')).mp same
  exact ordered.compare_eq_iff ordered' found found' entries strings strings'

/-- A hash that is never used, one that loses its only pair again, and two that hold a value under
equal strings, of which one had another pair before. -/
def emptyingScript : List (Event .bare) :=
  [.request .hash, .retain (.cell ⟨0, 0⟩), .request .hash, .retain (.cell ⟨1, 0⟩),
    .request .hash, .retain (.cell ⟨2, 0⟩), .request .hash, .retain (.cell ⟨3, 0⟩),
    .request (.string "j"), .request (.string "k"), .request (.string "k"),
    .request (.setKey (.cell ⟨1, 0⟩) (.cell ⟨4, 0⟩) .null),
    .request (.eraseKey (.cell ⟨1, 0⟩) (.cell ⟨4, 0⟩)),
    .request (.setKey (.cell ⟨2, 0⟩) (.cell ⟨4, 0⟩) .null),
    .request (.setKey (.cell ⟨2, 0⟩) (.cell ⟨5, 0⟩) (.cell ⟨4, 0⟩)),
    .request (.eraseKey (.cell ⟨2, 0⟩) (.cell ⟨4, 0⟩)),
    .request (.setKey (.cell ⟨3, 0⟩) (.cell ⟨6, 0⟩) (.cell ⟨4, 0⟩))]

theorem isSome_emptying : (run? (fun session event => event.Careful session.heap)
    (.start { hashBuckets := 1 }) emptyingScript).isSome = true := by
  decide +kernel

/-- The session after `emptyingScript`. -/
def emptied : Session .bare :=
  (run? _ _ emptyingScript).get isSome_emptying

theorem writtenByKeys_emptied (table : Value) :
    emptied.WrittenByKeys { hashBuckets := 1 } table :=
  .inr (reaches_of_run? .refl (Option.some_get isSome_emptying).symm)

theorem shrunken_hash_compares_equal :
    emptied.heap.pairs (.cell ⟨2, 0⟩) = [(.cell ⟨5, 0⟩, .cell ⟨4, 0⟩)] ∧
      emptied.heap.pairs (.cell ⟨3, 0⟩) = [(.cell ⟨6, 0⟩, .cell ⟨4, 0⟩)] ∧
      emptied.heap.SameContents (.cell ⟨2, 0⟩) (.cell ⟨3, 0⟩) ∧
      emptied.heap.compare (.cell ⟨2, 0⟩) (.cell ⟨3, 0⟩) = .eq := by
  obtain ⟨found, found', pairs, pairs', string, string', entries⟩ :
      emptied.heap.table? (.cell ⟨2, 0⟩) = some { buckets := [.cell ⟨8, 0⟩], pairs := 1 } ∧
      emptied.heap.table? (.cell ⟨3, 0⟩) = some { buckets := [.cell ⟨9, 0⟩], pairs := 1 } ∧
      emptied.heap.pairs (.cell ⟨2, 0⟩) = [(.cell ⟨5, 0⟩, .cell ⟨4, 0⟩)] ∧
      emptied.heap.pairs (.cell ⟨3, 0⟩) = [(.cell ⟨6, 0⟩, .cell ⟨4, 0⟩)] ∧
      emptied.heap.kind (.cell ⟨5, 0⟩) = .text ∧ emptied.heap.kind (.cell ⟨6, 0⟩) = .text ∧
      emptied.heap.entries (.cell ⟨2, 0⟩) = emptied.heap.entries (.cell ⟨3, 0⟩) := by
    decide +kernel
  have written := writtenByKeys_emptied (.cell ⟨2, 0⟩)
  have written' := writtenByKeys_emptied (.cell ⟨3, 0⟩)
  have same := (written.sameContents_iff written' (Heap.kind_of_table? found)
    (Heap.kind_of_table? found')).mpr entries
  refine ⟨pairs, pairs', same,
    (compare_eq_iff_same_slots written written' found found' same ?_ ?_).mpr ?_⟩
  · rw [pairs, List.forall_mem_singleton]
    exact string
  · rw [pairs', List.forall_mem_singleton]
    exact string'
  · exact .cons (by decide) .nil

/-- A hash that was never used is less than one that lost its only pair, although they hold the
same. -/
theorem unused_hash_is_less_than_emptied :
    emptied.WrittenByKeys { hashBuckets := 1 } (.cell ⟨0, 0⟩) ∧
      emptied.WrittenByKeys { hashBuckets := 1 } (.cell ⟨1, 0⟩) ∧
      emptied.heap.pairs (.cell ⟨0, 0⟩) = [] ∧ emptied.heap.pairs (.cell ⟨1, 0⟩) = [] ∧
      emptied.heap.SameContents (.cell ⟨0, 0⟩) (.cell ⟨1, 0⟩) ∧
      emptied.heap.compare (.cell ⟨0, 0⟩) (.cell ⟨1, 0⟩) = .lt := by
  have written := writtenByKeys_emptied (.cell ⟨0, 0⟩)
  have written' := writtenByKeys_emptied (.cell ⟨1, 0⟩)
  obtain ⟨isHash, isHash', noPairs, noPairs', less⟩ :
      emptied.heap.kind (.cell ⟨0, 0⟩) = .hash ∧ emptied.heap.kind (.cell ⟨1, 0⟩) = .hash ∧
      emptied.heap.pairs (.cell ⟨0, 0⟩) = [] ∧ emptied.heap.pairs (.cell ⟨1, 0⟩) = [] ∧
      emptied.heap.compare (.cell ⟨0, 0⟩) (.cell ⟨1, 0⟩) = .lt := by
    decide +kernel
  refine ⟨written, written', noPairs, noPairs', ?_, less⟩
  exact (written.sameContents_iff written' isHash isHash').mpr
    (by rw [Heap.entries, Heap.entries, noPairs, noPairs'])

end Session

end CountedHeap
