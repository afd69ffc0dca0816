import CountedHeap.Proofs.PartWrites
import CountedHeap.Proofs.Requests
import CountedHeap.Proofs.Staleness

/-!
Contract: a write at a path does nothing, or it writes in one place.

While the walk meets what is there, nothing is made.  Once a part is missing, everything further
down is a new hash without pairs, in which no later part can fail.  So what is made is needed.

Owns:
- chains of new hashes;
- what a write at a landing leaves;
- a write in a scope, which leaves the pool as it was.

Does not own: what a later reader finds.
-/

namespace CountedHeap

namespace Heap

variable {σ : Signature} {older heap heap' searching : Heap σ} {bound : Nat}
  {container table current value stored top answer : Value} {content : HashTable}
  {part : String} {parts rest missing : List String} {landing : Landing}

/-! ## What a write under a part leaves alone -/

/-- A write under a part writes what may be written: the container, and a bucket that it has. -/
theorem Puts.alters_storeCells (puts : Puts searching heap heap' container part stored answer) :
    Alters (heap.storeCells container) heap heap' := by
  cases puts with
  | item found position found' alters => exact alters.mono fun _ same => .inl same
  | replaced found place there sought found' there' alters =>
      apply alters.mono
      rintro _ - rfl
      refine .inr ⟨kind_of_table? found, ?_⟩
      rw [children_of_table? found]
      exact List.mem_of_getElem? place
  | inserted found isSlot bucketFor sought fresh named found' there' alters =>
      exact alters.mono (bucketFor.mem_storeCells found (ne_null_of_items? there'))

/-- Another hash is left alone, also where a bucket was written that is its own. -/
theorem Puts.table?_of_ne (puts : Puts searching heap heap' container part stored answer)
    (issued : heap.Issued table) (different : table ≠ container)
    (found : heap.table? table = some content) : heap'.table? table = some content := by
  cases puts with
  | item _ _ _ alters => rw [alters.table? issued different, found]
  | replaced _ _ there _ _ _ alters =>
      rw [alters.table? issued (ne_of_table?_of_items? found there), found]
  | @inserted _ _ bucket _ before after _ _ bucketFor _ _ _ _ _ alters =>
      have apart : table ≠ bucket := by
        rintro rfl
        generalize before ++ after = items at bucketFor
        cases bucketFor with
        | there _ there => exact ne_of_table?_of_items? found there rfl
        | made fresh => exact fresh issued
      rw [alters.table? issued (by simp [different, apart]), found]

/-- What was put is held by a cell. -/
theorem Puts.exists_child (puts : Puts searching heap heap' container part stored answer) :
    ∃ holder, stored ∈ heap'.children holder := by
  cases puts with
  | @item items index _ _ found' =>
      refine ⟨container, ?_⟩
      rw [children_of_items? found']
      exact List.mem_set (by rw [length_padded]; omega) _
  | @replaced _ bucket _ _ _ _ _ _ _ _ _ there' =>
      refine ⟨bucket, ?_⟩
      rw [children_of_items? there']
      simp
  | @inserted _ _ bucket _ _ _ _ _ _ _ _ _ _ there' =>
      refine ⟨bucket, ?_⟩
      rw [children_of_items? there']
      simp

/-! ## New hashes -/

/-- A new hash with one pair.  Its bucket and its key are new too. -/
structure HoldsOnly (heap heap' : Heap σ) (table : Value) (part : String) (value : Value) :
    Prop where
  fresh : ¬heap.Issued table
  pair : ∃ (count : Nat) (bucket name : Value), 0 < count ∧ ¬heap.Issued bucket ∧
    ¬heap.Issued name ∧ heap'.payload name = .text part ∧
    heap'.items? bucket = some [name, value] ∧ heap'.table? table = some
      { buckets := (List.replicate count .null).set (Text.bucketOf part count) bucket, pairs := 1 }

/-- New hashes that are chained by the given parts, each in the one before, and the stored value in
the last. -/
inductive Chain (heap heap' : Heap σ) (stored : Value) : Value → List String → Prop
  | last : Chain heap heap' stored stored []
  | link {table next : Value} {part : String} {rest : List String}
      (holds : HoldsOnly heap heap' table part next) (below : Chain heap heap' stored next rest) :
      Chain heap heap' stored table (part :: rest)

/-- What was put in a hash without pairs is its only pair. -/
theorem Puts.holdsOnly (puts : Puts searching heap heap' table part stored answer)
    (empty : heap.table? table = some {})
    (issued : ∀ {value}, older.Issued value → heap.Issued value) (fresh : ¬older.Issued table) :
    answer = .null ∧ HoldsOnly older heap' table part stored := by
  cases puts with
  | item found => exact absurd rfl (ne_of_table?_of_items? empty found)
  | replaced found place =>
      obtain rfl := Option.some.inj (empty.symm.trans found)
      contradiction
  | @inserted content slot bucket name before after found isSlot bucketFor sought new named found'
      there' =>
      obtain rfl := Option.some.inj (empty.symm.trans found)
      have absent : heap.bucketsOf {} = List.replicate (max heap.config.hashBuckets 1) .null := rfl
      rw [absent, List.length_replicate] at isSlot
      rw [absent] at bucketFor found'
      generalize whole : before ++ after = items at bucketFor
      cases bucketFor with
      | there place there =>
          exact absurd (List.eq_of_mem_replicate (List.mem_of_getElem? place))
            (ne_null_of_items? there)
      | made newBucket =>
          obtain ⟨rfl, rfl⟩ := List.append_eq_nil_iff.mp whole
          refine ⟨rfl, fresh, max heap.config.hashBuckets 1, bucket, name, by omega,
            mt issued newBucket, mt issued new, named, there', ?_⟩
          rw [← isSlot]
          exact found'

theorem table?_new_hash (consistent : heap.Consistent) :
    heap.hash.2.table? heap.hash.1 = some {} :=
  table?_eq_some_iff.mpr (payload_create_self consistent _)

/-- A new hash is no sequence. -/
theorem issued_of_items?_new_hash (consistent : heap.Consistent) {items : List Value}
    (found : heap.hash.2.items? value = some items) : heap.Issued value := by
  have different : value ≠ (heap.create (.hash {})).1 := by
    rintro rfl
    exact ne_of_table?_of_items? (table?_new_hash consistent) found rfl
  have live : heap.hash.2.isLive value = true := isLive_of_items? found
  rw [isLive, hash, cell?_create consistent, if_neg different] at live
  exact consistent.issued live

theorem childAt_of_empty (empty : heap.table? table = some {}) (part : String) :
    heap.childAt table part = .null := by
  rw [childAt, kind_of_table? empty]
  simp [getText, locate?, empty]

/-! ## Missing parts -/

/-- What is stored in a new hash goes into a chain that begins with it. -/
def StoresInChain (older heap : Heap σ) (table : Value) (parts : List String) (value : Value)
    (result : Value × Heap σ) : Prop :=
  result.1 = .null ∧ Alters {table} heap result.2 ∧
    ∃ stored, heap.OwnsAs {table} value stored ∧ Chain older result.2 stored table parts

/-- The longest list for which storing in a new hash may need room: its buckets, or its only
pair. -/
def newTableRoom (heap : Heap σ) : Nat :=
  max (max heap.config.hashBuckets 1) 2

theorem newTableRoom_congr (same : heap'.config.hashBuckets = heap.config.hashBuckets) :
    heap'.newTableRoom = heap.newTableRoom := by
  rw [newTableRoom, same, newTableRoom]

theorem partRoom_of_empty (empty : heap.table? table = some {}) (part : String) :
    heap.partRoom table part = heap.newTableRoom := by
  have single : heap.items? table = none := by
    rw [Heap.items?, table?_eq_some_iff.mp empty]
    rfl
  have nothing : heap.searched table part = [] := by
    rw [searched, bucketFor?_of_table? empty]
    rfl
  simp only [partRoom, single, pairRoom, children_of_table? empty, nothing]
  rfl

/-- A new hash is no sequence, and everything else is what it was. -/
theorem items?_hash (consistent : heap.Consistent) (value : Value) :
    heap.hash.2.items? value = heap.items? value := by
  rw [Heap.items?, hash, payload_create consistent]
  split
  next new =>
    have fresh : ¬heap.Issued (heap.create (.hash {})).1 := not_issued_create consistent _
    rw [new, Heap.items?,
      payload_of_not_isLive (eq_false_of_ne_true fun live => fresh (consistent.issued live))]
    rfl
  next => rfl

/-- A hash that is made before a write does not change what room the write may need. -/
theorem partRoom_hash (consistent : heap.Consistent) (issued : heap.Issued current)
    (part : String) : heap.hash.2.partRoom current part = heap.partRoom current part := by
  have same : heap.hash.2.payload current = heap.payload current :=
    payload_create_of_issued consistent _ issued
  have items : heap.hash.2.items? = heap.items? := funext (items?_hash consistent)
  have searched : heap.hash.2.searched current part = heap.searched current part := by
    rw [Heap.searched, bucketFor?, Heap.table?, same, items, Heap.searched, bucketFor?, Heap.table?]
  have pairs : heap.hash.2.pairRoom current part = heap.pairRoom current part := by
    rw [pairRoom, searched, children_of_payload_eq same, hash, config_create, pairRoom]
  rw [partRoom, items, pairs, partRoom]

/-- A part is missing: a new hash is put in its place, and everything further down is stored in the
new hash. -/
theorem ends_storeMissing (proper : heap.Proper False) {following : String}
    {others : List String} (place : heap.hasPlaceFor current part = true)
    (absent : heap.kind (heap.childAt current part) = .null)
    (room : heap.partRoom current part ≤ bound)
    (below : ∀ {between : Heap σ}, between.Proper False → heap.hash.2.Proper False →
      between.config.hashBuckets = heap.config.hashBuckets →
      (∀ {value}, heap.Issued value → between.Issued value) →
      between.table? heap.hash.1 = some {} →
      EndsWithin bound (storeBelow heap.hash.1 (following :: others) value between)
        (StoresInChain older between heap.hash.1 (following :: others) value)) :
    EndsWithin bound (storeBelow current (part :: following :: others) value heap) fun result =>
      result.1 = .null ∧ ∃ stored old, heap.OwnsAs (heap.storeCells current) value stored ∧
        Chain older result.2 stored heap.hash.1 (following :: others) ∧
        Puts heap.hash.2 heap result.2 current part heap.hash.1 old := by
  have consistent := proper.toConsistent
  have making : Alters ∅ heap heap.hash.2 := .create consistent _
  have leads : Leads False 0 heap heap.hash.2 := .createSingle rfl
  have proper' := leads.proper proper
  have issued : heap.Issued current := consistent.issued (isLive_of_hasPlaceFor place)
  have fresh : ¬heap.Issued heap.hash.1 := not_issued_create consistent _
  have place' : heap.hash.2.hasPlaceFor current part = true := by
    rw [hasPlaceFor, kind, size, making.payload issued (Set.notMem_empty _)]
    exact place
  rw [storeBelow]
  simp only [place, if_true, absent]
  rw [← partRoom_hash consistent issued part] at room
  apply ((ends_putChild proper' place' heap.hash.1).widen room).attach.bind
  rintro ⟨old, between⟩ ⟨done, stored, owns, puts⟩
  obtain rfl : stored = heap.hash.1 := owns.storedAs.2 (isScratch_create _)
  have leads' : Leads False 0 heap.hash.2 between := .putChild proper' done
  have proper'' := leads'.proper proper'
  have different : heap.hash.1 ≠ current := fun same => fresh (same ▸ issued)
  have empty : between.table? heap.hash.1 = some {} :=
    puts.table?_of_ne (issued_create_self consistent _) different (table?_new_hash consistent)
  have putting := puts.afterMaking consistent making (congrArg Config.hashBuckets (config_create _))
    (issued_of_items?_new_hash consistent) issued
  have altering := putting.alters_storeCells
  apply (below proper'' proper' altering.hashBuckets altering.issued empty).mono
  rintro ⟨answer, last⟩ ⟨rfl, changing, stored, owns, chain⟩
  refine ⟨rfl, stored, old, owns.before altering fun old same => ?_, chain, ?_⟩
  · exact absurd (Set.mem_singleton_iff.mp same ▸ old) fresh
  refine putting.later (fun alters => alters.trans changing fun old same => ?_) ?_ ?_
  · exact absurd (Set.mem_singleton_iff.mp same ▸ old) fresh
  · exact changing.payload (altering.issued issued) (Ne.symm different)
  · intro holder value _ live notHash
    apply changing.payload (proper''.toConsistent.issued live)
    rintro rfl
    exact notHash (kind_of_table? empty)

/-- Below a new hash nothing can be in the way. -/
theorem ends_storeBelow_of_empty (proper : heap.Proper False)
    (issued : ∀ {value}, older.Issued value → heap.Issued value) (fresh : ¬older.Issued table)
    (empty : heap.table? table = some {}) (value : Value) (part : String) (rest : List String) :
    EndsWithin heap.newTableRoom (storeBelow table (part :: rest) value heap)
      (StoresInChain older heap table (part :: rest) value) := by
  have isHash := kind_of_table? empty
  have cells : heap.storeCells table = {table} := by
    ext other
    simp [storeCells, children_of_table? empty]
  induction rest generalizing heap table part with
  | nil =>
      rw [storeBelow, if_pos (hasPlaceFor_of_hash isHash), ← partRoom_of_empty empty part]
      apply (ends_putChild proper (hasPlaceFor_of_hash isHash) value).mono
      rintro ⟨answer, last⟩ ⟨stored, owns, puts⟩
      obtain ⟨none, holds⟩ := puts.holdsOnly empty issued fresh
      have altering := puts.alters_storeCells
      rw [cells] at owns altering
      exact ⟨none, altering, stored, owns, .link holds .last⟩
  | cons following others inductionHypothesis =>
      have absent : heap.kind (heap.childAt table part) = .null := by
        rw [childAt_of_empty empty, kind_null]
      have new : ¬older.Issued heap.hash.1 := fun old =>
        not_issued_create proper.toConsistent _ (issued old)
      apply (ends_storeMissing proper (hasPlaceFor_of_hash isHash) absent
        (partRoom_of_empty empty part).le fun between _ buckets still empty => ?_).mono
      · rintro ⟨answer, last⟩ ⟨none, stored, old, owns, chain, puts⟩
        obtain ⟨-, holds⟩ := puts.holdsOnly empty issued fresh
        have altering := puts.alters_storeCells
        rw [cells] at owns altering
        exact ⟨none, altering, stored, owns, .link holds chain⟩
      · rw [← newTableRoom_congr buckets]
        apply inductionHypothesis between (fun old => still (issued old)) new empty following
          (kind_of_table? empty)
        ext other
        simp [storeCells, children_of_table? empty]

/-! ## Landings -/

/-- The heap in which a write at a landing searches for the part.  If parts are missing, a hash is
made before the search. -/
def Landing.source (landing : Landing) (heap : Heap σ) : Heap σ :=
  if landing.missing = [] then heap else heap.hash.2

/-- What a write at a landing leaves.  One item or one pair is put under the part: the stored value,
or the first of a chain of new hashes if parts are missing.  The answer is what was there before. -/
structure Writes (heap heap' : Heap σ) (landing : Landing) (value stored answer : Value) :
    Prop where
  owns : heap.OwnsAs (heap.storeCells landing.site) value stored
  puts : ∃ top old, Chain heap heap' stored top landing.missing ∧
    Puts (landing.source heap) heap heap' landing.site landing.part top old ∧
    answer = if landing.missing = [] then old else .null

/-- The longest list for which a write at a landing may need room: what the part needs there, and
what a new hash needs if parts are missing. -/
def Landing.room (landing : Landing) (heap : Heap σ) : Nat :=
  if landing.missing = [] then heap.partRoom landing.site landing.part
  else max (heap.partRoom landing.site landing.part) heap.newTableRoom

/-- A write from a landing on writes in one place, or there is no room. -/
theorem ends_storeBelow (proper : heap.Proper False)
    (found : heap.landing? current parts = some landing) (value : Value) :
    EndsWithin (landing.room heap) (storeBelow current parts value heap) fun result =>
      ∃ stored, heap.Writes result.2 landing value stored result.1 := by
  induction parts generalizing current with
  | nil => contradiction
  | cons part rest inductionHypothesis =>
      obtain ⟨place, ⟨lands, rfl⟩ | ⟨more, further⟩⟩ := landing?_cases found
      · rcases rest with _ | ⟨following, others⟩
        · rw [storeBelow, if_pos place]
          apply (ends_putChild proper place value).mono
          rintro ⟨answer, last⟩ ⟨stored, owns, puts⟩
          exact ⟨stored, owns, stored, answer, .last, puts, rfl⟩
        · have absent := lands.resolve_left (List.cons_ne_nil _ _)
          have room : Landing.room ⟨current, part, following :: others⟩ heap =
              max (heap.partRoom current part) heap.newTableRoom := if_neg (List.cons_ne_nil _ _)
          rw [room]
          apply (ends_storeMissing proper place absent (le_max_left _ _)
            fun between _ buckets still empty =>
              (ends_storeBelow_of_empty between still (not_issued_create proper.toConsistent _)
                empty value following others).widen
                ((newTableRoom_congr buckets).le.trans (le_max_right _ _))).mono
          rintro ⟨answer, last⟩ ⟨rfl, stored, old, owns, chain, puts⟩
          exact ⟨stored, owns, _, old, chain, puts, rfl⟩
      · obtain ⟨nonempty, present⟩ := not_or.mp more
        obtain ⟨following, others, rfl⟩ := List.exists_cons_of_ne_nil nonempty
        rw [storeBelow]
        simp only [place, if_true, present, if_false, isMulti_of_landing? further]
        exact inductionHypothesis further

/-! ## Scopes -/

/-- A chain of long-lived hashes is there as long as what is long-lived keeps its payload. -/
theorem Chain.later (chain : Chain older heap stored top missing) (proper : heap.Proper False)
    (same : ∀ {value}, value.isScratch = false → heap'.payload value = heap.payload value)
    (durable : missing ≠ [] → top.isScratch = false) : Chain older heap' stored top missing := by
  induction chain with
  | last => exact .last
  | @link table next part rest holds below inductionHypothesis =>
      obtain ⟨count, bucket, name, positive, newBucket, newName, named, there, isTable⟩ :=
        holds.pair
      have longTable : table.isScratch = false := durable (List.cons_ne_nil _ _)
      have longBucket : bucket.isScratch = false := by
        have inside : Text.bucketOf part count < (List.replicate count Value.null).length := by
          rw [List.length_replicate]
          exact Text.bucketOf_lt _ positive
        have child : bucket ∈ heap.children table := by
          rw [children_of_table? isTable]
          exact List.mem_set inside _
        exact (proper.storable child).durable
      have items : ∀ item ∈ [name, next], item.isScratch = false := by
        intro item member
        have child : item ∈ heap.children bucket := by rwa [children_of_items? there]
        exact (proper.storable child).durable
      refine .link ⟨holds.fresh, count, bucket, name, positive, newBucket, newName, ?_, ?_, ?_⟩
        (inductionHypothesis fun _ => items next (by simp))
      · rw [same (items name (by simp)), named]
      · rw [Heap.items?, same longBucket, ← Heap.items?, there]
      · rw [Heap.table?, same longTable, ← Heap.table?, isTable]

/-- Closing the scope of a write leaves everything that was written. -/
theorem Writes.unwind (writes : heap.Writes heap' landing value stored answer)
    (proper : heap'.Proper False) (issued : heap.Issued landing.site) {mark : Nat}
    (serials : (heap'.unwind mark).serials = heap.serials) :
    heap.Writes (heap'.unwind mark) landing value stored answer := by
  obtain ⟨top, old, chain, puts, answered⟩ := writes.puts
  have closing := puts.alters_storeCells.unwind serials
  refine ⟨writes.owns, top, old, chain.later proper (fun durable => payload_unwind mark durable)
    fun _ => ?_, puts.later (fun alters => alters.unwind serials) ?_ ?_, answered⟩
  · obtain ⟨holder, child⟩ := puts.exists_child
    exact (proper.storable child).durable
  · apply payload_unwind_of_isLive_eq
    rw [closing.live issued, puts.alters_storeCells.live issued]
  · intro holder value child _ _
    exact payload_unwind mark (proper.storable child).durable

theorem isLive_site (found : heap.landing? current parts = some landing) :
    heap.isLive landing.site = true :=
  isLive_of_hasPlaceFor (hasPlaceFor_site found)

/-- A write at a path without a landing does nothing. -/
theorem setPath_of_landing?_eq_none {root path : Value}
    (absent : heap.landing? root (heap.pathParts path) = none) (value : Value) :
    heap.setPath root path value = .ok (.null, heap) := by
  rw [setPath, inScope, storeBelow_of_landing?_eq_none absent]
  show Except.ok (Value.null, heap.unwind heap.scratch.size) = .ok (.null, heap)
  rw [unwind_self]

/-- A write at a path with a landing. -/
theorem ends_setPath (proper : heap.Proper False) {root path : Value}
    (found : heap.landing? root (heap.pathParts path) = some landing) (value : Value) :
    EndsWithin (landing.room heap) (heap.setPath root path value) fun result =>
      result.2.serials = heap.serials ∧
        ∃ stored, heap.Writes result.2 landing value stored result.1 := by
  have issued := proper.toConsistent.issued (isLive_site found)
  rw [setPath, inScope]
  apply (ends_storeBelow proper found value).attach.bind
  rintro ⟨answer, last⟩ ⟨done, stored, writes⟩
  have leads : Leads False heap.scratch.size heap last := .storeBelow proper done
  obtain ⟨made, trace⟩ := leads.trace
  have serials : (last.unwind heap.scratch.size).serials = heap.serials := by
    rw [serials_unwind, (trace.serials (Nat.le_refl _)).2, ← length_serials, List.take_length]
  exact .ended ⟨serials, stored, writes.unwind (leads.proper proper) issued serials⟩

/-! ## Writes in a run -/

/-- In every run, a write at a path does nothing if there is no part, no root, or something in the
way: a present value that is no container, or a position before the first item.  Otherwise it stores
one item or one pair in a container that is there.  If parts are missing, what is put there is the
first of a chain of new hashes with the stored value in the last.  Nothing else that was there is
changed, and the pool is what it was.  It ends so unless it asks for more room than there is, and it
asks for no more than the landing needs. -/
theorem Runs.setPath_writes_in_one_place {config : Config} (runs : Runs False (.new config) heap)
    (root path value : Value) :
    (heap.pathParts path = [] ∨ heap.kind root = .null ∨ heap.Blocked root (heap.pathParts path) →
      heap.setPath root path value = .ok (.null, heap)) ∧
    (heap.pathParts path ≠ [] → heap.kind root ≠ .null →
      ¬heap.Blocked root (heap.pathParts path) →
      ∃ landing, heap.landing? root (heap.pathParts path) = some landing ∧
        heap.isLive landing.site = true ∧
        EndsWithin (landing.room heap) (heap.setPath root path value) fun result =>
          result.2.serials = heap.serials ∧
            ∃ stored, heap.Writes result.2 landing value stored result.1) := by
  refine ⟨fun nothing => ?_, fun nonempty present free => ?_⟩
  · exact setPath_of_landing?_eq_none (landing?_eq_none_iff.mpr nothing) value
  · cases found : heap.landing? root (heap.pathParts path) with
    | none =>
        rcases landing?_eq_none_iff.mp found with empty | absent | blocked
        · exact absurd empty nonempty
        · exact absurd absent present
        · exact absurd blocked free
    | some landing =>
        exact ⟨landing, rfl, isLive_site found, ends_setPath runs.proper_new found value⟩

/-- A hash with a list of one integer, and two paths through the list: one to a position before the
first item, and one through two missing parts. -/
def shelving : List (Request .bare) :=
  [.hash, .int 7, .arrayOf [.cell ⟨1, 0⟩], .scratchString "list",
    .setKey (.cell ⟨0, 0⟩) (.scratch ⟨0, 0⟩) (.cell ⟨2, 0⟩), .scratchString "list.-5.x",
    .scratchString "list.2.x.y"]

theorem isSome_shelving : ((new { hashBuckets := 2 }).performAll? shelving).isSome = true := by
  decide +kernel

def shelf : Heap .bare :=
  ((new { hashBuckets := 2 }).performAll? shelving).get isSome_shelving

theorem runs_shelf : Runs False (.new { hashBuckets := 2 }) shelf :=
  Runs.refl.performAll? (Option.some_get isSome_shelving).symm

theorem pathParts_shelf : shelf.pathParts (.scratch ⟨2, 2⟩) = ["list", "2", "x", "y"] := by
  decide +kernel

theorem landing?_shelf : shelf.landing? (.cell ⟨0, 0⟩) (shelf.pathParts (.scratch ⟨2, 2⟩)) =
    some ⟨.cell ⟨2, 0⟩, "2", ["x", "y"]⟩ := by
  rw [pathParts_shelf]
  decide +kernel

theorem shelf_written_in_one_place :
    Runs False (.new { hashBuckets := 2 }) shelf ∧
      shelf.Blocked (.cell ⟨0, 0⟩) (shelf.pathParts (.scratch ⟨1, 1⟩)) ∧
      shelf.setPath (.cell ⟨0, 0⟩) (.scratch ⟨1, 1⟩) (.cell ⟨1, 0⟩) = .ok (.null, shelf) ∧
      ∃ answer heap' stored,
        shelf.setPath (.cell ⟨0, 0⟩) (.scratch ⟨2, 2⟩) (.cell ⟨1, 0⟩) = .ok (answer, heap') ∧
          heap'.serials = [0, 1, 2] ∧
          shelf.Writes heap' ⟨.cell ⟨2, 0⟩, "2", ["x", "y"]⟩ (.cell ⟨1, 0⟩) stored answer := by
  have parts : shelf.pathParts (.scratch ⟨1, 1⟩) = ["list", "-5", "x"] := by decide +kernel
  have blocked : shelf.Blocked (.cell ⟨0, 0⟩) (shelf.pathParts (.scratch ⟨1, 1⟩)) := by
    have found : shelf.items? (shelf.childAt (.cell ⟨0, 0⟩) "list") = some [.cell ⟨1, 0⟩] := by
      decide +kernel
    rw [parts]
    exact .deeper (by decide +kernel) (.beforeFirst found (by decide +kernel))
  obtain ⟨nothing, -⟩ := runs_shelf.setPath_writes_in_one_place (.cell ⟨0, 0⟩) (.scratch ⟨1, 1⟩)
    (.cell ⟨1, 0⟩)
  obtain ⟨-, somewhere⟩ := runs_shelf.setPath_writes_in_one_place (.cell ⟨0, 0⟩) (.scratch ⟨2, 2⟩)
    (.cell ⟨1, 0⟩)
  obtain ⟨landing, found, -, ends⟩ := somewhere
    (by rw [pathParts_shelf]; exact List.cons_ne_nil _ _)
    (by decide +kernel) (not_blocked_of_landing? landing?_shelf)
  obtain rfl := Option.some.inj (landing?_shelf.symm.trans found)
  obtain ⟨⟨answer, heap'⟩, done, serials, stored, writes⟩ := ends.exists_ok (by decide +kernel)
  have before : shelf.serials = [0, 1, 2] := by decide +kernel
  exact ⟨runs_shelf, blocked, nothing (.inr (.inr blocked)), answer, heap', stored, done,
    serials.trans before, writes⟩

end Heap

end CountedHeap
