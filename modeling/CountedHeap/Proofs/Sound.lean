import CountedHeap.Proofs.References
import Mathlib.Algebra.Order.Group.Multiset
import Mathlib.Tactic.Abel

/-!
Contract: the invariant of every heap, and how each elementary change keeps it.

`held` is a ledger of the references that are kept outside the cells: by callers, and within
an operation by the operation itself.  The invariant says that counts are exact with respect
to the ledger; a change that moves references in or out of a cell moves the ledger the other
way.

Owns:
- `Sound`, made of the consistency of slab and pool, exact counts, and the shape of what is
  stored;
- its preservation by every elementary change.

Does not own: the contents of hash tables beyond who owns which bucket.
-/

namespace CountedHeap

namespace Heap

variable {σ : Signature} {heap heap' : Heap σ} {held : Multiset Value}

/-- Every count is what the ledger and the cells together hold. -/
def Exact (heap : Heap σ) (held : Multiset Value) : Prop :=
  ∀ value, heap.isLive value = true →
    heap.refs value = held.count value + heap.references.count value

/-- Counts are exact, and the ledger and the cells hold issued handles only. -/
structure Counted (heap : Heap σ) (held : Multiset Value) : Prop where
  refs_eq : ∀ {value}, heap.isLive value = true →
    heap.refs value = held.count value + heap.references.count value
  issued_held : ∀ {value}, value ∈ held → heap.Issued value
  issued_child : ∀ {holder value}, value ∈ heap.children holder → heap.Issued value

/-- The buckets of one table are arrays or absent, and no other table and no other place of
this one has the same array. -/
structure OwnsBuckets (heap : Heap σ) (table : Value) (content : HashTable) : Prop where
  array : ∀ {bucket}, bucket ∈ content.buckets → bucket = .null ∨ heap.kind bucket = .array
  distinct : ∀ {bucket} {place other : Nat}, content.buckets[place]? = some bucket →
    content.buckets[other]? = some bucket → bucket ≠ .null → place = other
  alone : ∀ {bucket other otherContent}, other ≠ table →
    heap.table? other = some otherContent → bucket ∈ content.buckets →
    bucket ∈ otherContent.buckets → bucket = .null

/-- Cells hold no scratch values, the pool has cells of the kinds that scratch values can
have, and tables own their buckets. -/
structure Shaped (heap : Heap σ) : Prop where
  durable : ∀ {holder value}, value ∈ heap.children holder → value.isScratch = false
  pool : ∀ {value}, value.isScratch = true → heap.isLive value = true →
    (heap.payload value).isPlainData = true ∨ heap.kind value = .array
  tables : ∀ {table content}, heap.table? table = some content → heap.OwnsBuckets table content

/-- The invariant of heaps. -/
structure Sound (heap : Heap σ) (held : Multiset Value) : Prop
    extends heap.Consistent, heap.Counted held, heap.Shaped

/-! ## Consequences -/

theorem Counted.issued_references (counted : heap.Counted held) {value : Value}
    (member : value ∈ heap.references) : heap.Issued value := by
  obtain ⟨holder, -, child⟩ := mem_references_iff.mp member
  exact counted.issued_child child

theorem Counted.exact (counted : heap.Counted held) : heap.Exact held :=
  fun _ live => counted.refs_eq live

/-- Nothing holds a value whose count is zero. -/
theorem Exact.unreferenced (exact_ : heap.Exact held) {value : Value}
    (live : heap.isLive value = true) (zero : heap.refs value = 0) :
    value ∉ held ∧ value ∉ heap.references := by
  have counted := exact_ value live
  rw [zero] at counted
  exact ⟨Multiset.count_eq_zero.mp (by omega), List.count_eq_zero.mp (by omega)⟩

/-- A handle that has not been issued is held by nothing. -/
theorem Counted.count_eq_zero (counted : heap.Counted held) {value : Value}
    (fresh : ¬heap.Issued value) :
    held.count value = 0 ∧ heap.references.count value = 0 :=
  ⟨Multiset.count_eq_zero.mpr fun member => fresh (counted.issued_held member),
    List.count_eq_zero.mpr fun member => fresh (counted.issued_references member)⟩

theorem table?_eq_some_iff {table : Value} {content : HashTable} :
    heap.table? table = some content ↔ heap.payload table = .hash content := by
  unfold table?
  cases heap.payload table <;> simp [Payload.table?]

theorem children_of_table? {table : Value} {content : HashTable}
    (found : heap.table? table = some content) : heap.children table = content.buckets := by
  rw [children, table?_eq_some_iff.mp found]
  rfl

theorem Sound.issued_bucket (sound : heap.Sound held) {table bucket : Value}
    {content : HashTable} (found : heap.table? table = some content)
    (member : bucket ∈ content.buckets) : heap.Issued bucket := by
  rw [← children_of_table? found] at member
  exact sound.issued_child member

theorem array_of_kind {value : Value} (isArray : heap.kind value = .array) :
    ∃ items, heap.payload value = .array items := by
  unfold kind at isArray
  cases content : heap.payload value <;> simp_all [Payload.kind]

/-- A bucket is absent or an array. -/
theorem Sound.bucket_payload (sound : heap.Sound held) {table bucket : Value}
    {content : HashTable} (found : heap.table? table = some content)
    (member : bucket ∈ content.buckets) :
    bucket = .null ∨ ∃ items, heap.payload bucket = .array items :=
  ((sound.tables found).array member).imp_right array_of_kind

theorem Sound.bucket_array (sound : heap.Sound held) {table bucket : Value}
    {content : HashTable} {items : List Value} (found : heap.table? table = some content)
    (member : bucket ∈ content.buckets) (itemsFound : heap.items? bucket = some items) :
    heap.payload bucket = .array items := by
  rcases sound.bucket_payload found member with rfl | ⟨items', payload⟩
  · contradiction
  · rw [items?, payload] at itemsFound
    rw [payload, Option.some.inj itemsFound]

theorem isLive_of_mem_children {holder value : Value} (member : value ∈ heap.children holder) :
    heap.isLive holder = true := by
  by_contra stale
  rw [children_of_not_isLive (eq_false_of_ne_true stale)] at member
  contradiction

theorem kind_of_table? {table : Value} {content : HashTable}
    (found : heap.table? table = some content) : heap.kind table = .hash := by
  rw [kind, table?_eq_some_iff.mp found]
  rfl

theorem isLive_of_table? {table : Value} {content : HashTable}
    (found : heap.table? table = some content) : heap.isLive table = true :=
  isLive_of_kind_ne (by rw [kind_of_table? found]; decide)

theorem children_of_items? {sequence : Value} {items : List Value}
    (found : heap.items? sequence = some items) : heap.children sequence = items := by
  unfold items? at found
  unfold children
  cases payload : heap.payload sequence <;> simp_all [Payload.items?, Payload.children]

theorem isSequence_of_items? {sequence : Value} {items : List Value}
    (found : heap.items? sequence = some items) : (heap.kind sequence).isSequence = true := by
  unfold items? at found
  unfold kind
  cases payload : heap.payload sequence <;>
    simp_all [Payload.items?, Payload.kind, Kind.isSequence]

theorem exists_items?_of_isSequence {sequence : Value}
    (sequential : (heap.kind sequence).isSequence = true) :
    ∃ items, heap.items? sequence = some items := by
  unfold kind at sequential
  unfold items?
  cases payload : heap.payload sequence <;>
    simp_all [Payload.items?, Payload.kind, Kind.isSequence]

theorem isLive_of_items? {sequence : Value} {items : List Value}
    (found : heap.items? sequence = some items) : heap.isLive sequence = true := by
  refine isLive_of_kind_ne fun absent => ?_
  have sequential := isSequence_of_items? found
  rw [absent] at sequential
  contradiction

/-! ## The empty heap -/

theorem not_isLive_new (config : Config) (value : Value) :
    (Heap.new config : Heap σ).isLive value = false := by
  cases value <;> rfl

theorem Sound.new (config : Config) : (Heap.new config : Heap σ).Sound 0 where
  free_nodup := .nil
  mem_free := fun index => by simp [Heap.new]
  serial_lt := fun index slot found => by simp [Heap.new] at found
  refs_eq := fun {value} live => by rw [not_isLive_new] at live; contradiction
  issued_held := fun member => absurd member (Multiset.notMem_zero _)
  issued_child := fun {holder value} member => by
    rw [children_of_not_isLive (not_isLive_new config holder)] at member
    contradiction
  durable := fun {holder value} member => by
    rw [children_of_not_isLive (not_isLive_new config holder)] at member
    contradiction
  pool := fun {value} _ live => by rw [not_isLive_new] at live; contradiction
  tables := fun {table content} found => by
    rw [table?_eq_some_iff, payload_of_not_isLive (not_isLive_new config table)] at found
    contradiction

/-! ## Changes that move no reference -/

theorem OwnsBuckets.congr {table : Value} {content : HashTable}
    (owns : heap.OwnsBuckets table content)
    (kind : ∀ {bucket}, bucket ∈ content.buckets → heap.kind bucket = .array →
      heap'.kind bucket = .array)
    (tables : ∀ {other otherContent}, other ≠ table → heap'.table? other = some otherContent →
      heap.table? other = some otherContent ∨ otherContent.buckets = []) :
    heap'.OwnsBuckets table content := by
  refine ⟨fun member => (owns.array member).imp_right (kind member), owns.distinct,
    fun {bucket other otherContent} different found member otherMember => ?_⟩
  rcases tables different found with before | empty
  · exact owns.alone different before member otherMember
  · simp [empty] at otherMember

/-- What is stored depends on payloads and on which cells are live. -/
theorem Shaped.congr (shaped : heap.Shaped)
    (payload : ∀ value, heap'.payload value = heap.payload value)
    (live : ∀ value, heap'.isLive value = heap.isLive value) : heap'.Shaped := by
  have kind : ∀ value, heap'.kind value = heap.kind value := fun value => by
    simp only [Heap.kind, payload]
  have table : ∀ value, heap'.table? value = heap.table? value := fun value => by
    simp only [table?, payload]
  refine ⟨fun {holder value} member => ?_, fun {value} scratch isLive => ?_,
    fun {other content} found => ?_⟩
  · exact shaped.durable (by rwa [children_of_payload_eq (payload holder)] at member)
  · rw [payload, kind]
    exact shaped.pool scratch (by rwa [live] at isLive)
  · refine (shaped.tables (by rwa [table] at found)).congr (fun _ isArray => ?_)
      (fun _ otherFound => .inl ?_)
    · rwa [kind]
    · rwa [table] at otherFound

/-- A retained value has one owner more. -/
theorem Exact.retain (exact_ : heap.Exact held) (value : Value) :
    (heap.retain value).Exact (value ::ₘ held) := by
  intro other live
  rw [isLive_retain] at live
  rw [refs_retain, exact_ other live, count_references_retain, Multiset.count_cons]
  by_cases same : other = value
  · rw [if_pos ⟨same, same ▸ live⟩, if_pos same]
    omega
  · rw [if_neg (fun both => same both.1), if_neg same]
    omega

theorem Sound.retain (sound : heap.Sound held) {value : Value} (issued : heap.Issued value) :
    (heap.retain value).Sound (value ::ₘ held) where
  toConsistent := sound.toConsistent.modifyCell value _
  toCounted := by
    refine ⟨fun {other} live => sound.toCounted.exact.retain value other live,
      fun {other} member => ?_, fun {holder other} member => ?_⟩
    · rw [issued_retain]
      rcases Multiset.mem_cons.mp member with rfl | inHeld
      · exact issued
      · exact sound.issued_held inHeld
    · rw [issued_retain]
      rw [children_of_payload_eq (payload_retain heap value holder)] at member
      exact sound.issued_child member
  toShaped := sound.toShaped.congr (payload_retain heap value) (isLive_retain value)

theorem Sound.release {value : Value} (sound : heap.Sound (value ::ₘ held)) :
    (heap.release value).Sound held where
  toConsistent := sound.toConsistent.modifyCell value _
  toCounted := by
    refine ⟨fun {other} live => ?_, fun {other} member => ?_, fun {holder other} member => ?_⟩
    · rw [isLive_release] at live
      rw [refs_release, sound.refs_eq live, count_references_release, Multiset.count_cons]
      by_cases same : other = value
      · rw [if_pos same]
        omega
      · rw [if_neg same]
        omega
    · rw [issued_release]
      exact sound.issued_held (Multiset.mem_cons_of_mem member)
    · rw [issued_release]
      rw [children_of_payload_eq (payload_release heap value holder)] at member
      exact sound.issued_child member
  toShaped := sound.toShaped.congr (payload_release heap value) (isLive_release value)

/-- A heap in which only the tuning, the cursor and the statistics differ. -/
structure SameCells (heap heap' : Heap σ) : Prop where
  slots : heap'.slots = heap.slots
  free : heap'.free = heap.free
  scratch : heap'.scratch = heap.scratch
  nextSerial : heap'.nextSerial = heap.nextSerial
  hashBuckets : heap'.config.hashBuckets = heap.config.hashBuckets

theorem SameCells.counters (heap : Heap σ) (cursor allocated : Nat) :
    SameCells heap { heap with cursor, allocated } :=
  ⟨rfl, rfl, rfl, rfl, rfl⟩

theorem SameCells.cell? (same : SameCells heap heap') (value : Value) :
    heap'.cell? value = heap.cell? value := by
  cases value <;> simp [Heap.cell?, same.slots, same.scratch]

theorem SameCells.issued (same : SameCells heap heap') (value : Value) :
    heap'.Issued value ↔ heap.Issued value := by
  cases value <;> simp [Issued, same.slots, same.nextSerial]

theorem Sound.of_sameCells (sound : heap.Sound held) (same : SameCells heap heap') :
    heap'.Sound held where
  free_nodup := by rw [same.free]; exact sound.free_nodup
  mem_free := by rw [same.free, same.slots]; exact sound.mem_free
  serial_lt := by rw [same.scratch, same.nextSerial]; exact sound.serial_lt
  toCounted := by
    have live : ∀ value, heap'.isLive value = heap.isLive value := fun value =>
      isLive_eq_of_cell?_eq (same.cell? value)
    have children : ∀ value, heap'.children value = heap.children value := fun value =>
      children_of_payload_eq (payload_eq_of_cell?_eq (same.cell? value))
    refine ⟨fun {value} isLive => ?_, fun {value} member => ?_, fun {holder value} member => ?_⟩
    · rw [live] at isLive
      rw [refs_eq_of_cell?_eq (same.cell? value), sound.refs_eq isLive,
        count_references_congr live children]
    · exact (same.issued value).mpr (sound.issued_held member)
    · rw [children] at member
      exact (same.issued value).mpr (sound.issued_child member)
  toShaped := sound.toShaped.congr (fun value => payload_eq_of_cell?_eq (same.cell? value))
    (fun value => isLive_eq_of_cell?_eq (same.cell? value))

/-! ## Changes that move references -/

theorem kind_setPayload {target : Value} {payload : Payload σ}
    (sameKind : payload.kind = heap.kind target) (value : Value) :
    (heap.setPayload target payload).kind value = heap.kind value := by
  simp only [kind, payload_setPayload]
  split
  next replaced => rw [replaced.1, sameKind, kind]
  next => rfl

theorem kind_setChildren (heap : Heap σ) (sequence : Value) (items : List Value) (value : Value) :
    (heap.setChildren sequence items).kind value = heap.kind value := by
  rw [setChildren_eq_setPayload]
  exact kind_setPayload (Payload.kind_withChildren items _) value

theorem table?_setPayload_of_ne {target other : Value} (payload : Payload σ)
    (different : other ≠ target) :
    (heap.setPayload target payload).table? other = heap.table? other := by
  rw [table?, payload_setPayload, if_neg fun both => different both.1, table?]

theorem table?_setPayload_self {target : Value} {payload : Payload σ} {content : HashTable}
    (live : heap.isLive target = true) :
    (heap.setPayload target payload).table? target = some content ↔ payload = .hash content := by
  rw [table?_eq_some_iff, payload_setPayload, if_pos ⟨rfl, live⟩]

theorem mem_children_setPayload {target holder value : Value} {payload : Payload σ}
    (live : heap.isLive target = true)
    (member : value ∈ (heap.setPayload target payload).children holder) :
    holder = target ∧ value ∈ payload.children ∨ value ∈ heap.children holder := by
  by_cases same : holder = target
  · rw [children, payload_setPayload, if_pos ⟨same, live⟩] at member
    exact .inl ⟨same, member⟩
  · rw [children, payload_setPayload, if_neg (fun both => same both.1)] at member
    exact .inr member

/-- Scratch values stay what the pool may have. -/
theorem Shaped.pool_setPayload (shaped : heap.Shaped) {target : Value} {payload : Payload σ}
    (sameKind : payload.kind = heap.kind target) (container : payload.kind.isMulti = true)
    {value : Value} (scratch : value.isScratch = true) (live : heap.isLive value = true) :
    ((heap.setPayload target payload).payload value).isPlainData = true ∨
      (heap.setPayload target payload).kind value = .array := by
  rw [kind_setPayload sameKind, payload_setPayload]
  rcases shaped.pool scratch live with plain | isArray
  · refine .inl ?_
    split
    next replaced =>
      rw [replaced.1] at plain
      rw [sameKind, kind] at container
      cases content : heap.payload target <;>
        simp_all [Payload.isPlainData, Payload.kind, Kind.isMulti]
    next => exact plain
  · exact .inr isArray

/-- Tables go on owning their buckets. -/
theorem Shaped.tables_setPayload (shaped : heap.Shaped) {target : Value} {payload : Payload σ}
    (live : heap.isLive target = true) (sameKind : payload.kind = heap.kind target)
    (owns : ∀ content, payload = .hash content → heap.OwnsBuckets target content)
    {table : Value} {content : HashTable}
    (found : (heap.setPayload target payload).table? table = some content) :
    (heap.setPayload target payload).OwnsBuckets table content := by
  by_cases same : table = target
  · subst same
    refine (owns content ((table?_setPayload_self live).mp found)).congr (fun _ isArray => ?_)
      (fun different otherFound => .inl ?_)
    · rwa [kind_setPayload sameKind]
    · rwa [table?_setPayload_of_ne _ different] at otherFound
  · rw [table?_setPayload_of_ne _ same] at found
    have before := shaped.tables found
    refine ⟨fun member => ?_, before.distinct, fun {bucket other otherContent} different
      otherFound member otherMember => ?_⟩
    · rw [kind_setPayload sameKind]
      exact before.array member
    · by_cases isTarget : other = target
      · subst isTarget
        exact (owns _ ((table?_setPayload_self live).mp otherFound)).alone same found
          otherMember member
      · rw [table?_setPayload_of_ne _ isTarget] at otherFound
        exact before.alone different otherFound member otherMember

/-- A payload of the same kind takes the place of another; the ledger gives what is stored now
and gets what was stored before. -/
theorem Sound.setPayload {held' : Multiset Value} (sound : heap.Sound held) {target : Value}
    {payload : Payload σ} (live : heap.isLive target = true)
    (sameKind : payload.kind = heap.kind target) (container : payload.kind.isMulti = true)
    (accounts : held + ↑(heap.children target) = held' + ↑payload.children)
    (durable : ∀ value ∈ payload.children,
      value ∈ heap.children target ∨ value.isScratch = false)
    (owns : ∀ content, payload = .hash content → heap.OwnsBuckets target content) :
    (heap.setPayload target payload).Sound held' := by
  -- Every value in the ledger or among the new children was in the ledger or stored before.
  have accounted : ∀ {value}, value ∈ held' + (↑payload.children : Multiset Value) →
      heap.Issued value := by
    intro value member
    rw [← accounts] at member
    rcases Multiset.mem_add.mp member with inHeld | stored
    · exact sound.issued_held inHeld
    · exact sound.issued_child (Multiset.mem_coe.mp stored)
  refine { sound.toConsistent.modifyCell target _ with
    refs_eq := fun {value} isLive => ?_
    issued_held := fun {value} member => ?_
    issued_child := fun {holder value} member => ?_
    durable := fun {holder value} member => ?_
    pool := fun {value} scratch isLive => ?_
    tables := sound.toShaped.tables_setPayload live sameKind owns }
  · rw [isLive_setPayload] at isLive
    have moved := count_references_setPayload live payload value
    have balance := congrArg (Multiset.count value) accounts
    simp only [Multiset.count_add, Multiset.coe_count] at balance
    rw [refs_setPayload, sound.refs_eq isLive]
    omega
  · exact (issued_setPayload _ _ _).mpr (accounted (Multiset.mem_add.mpr (.inl member)))
  · refine (issued_setPayload _ _ _).mpr ?_
    rcases mem_children_setPayload live member with ⟨-, new⟩ | old
    · exact accounted (Multiset.mem_add.mpr (.inr (Multiset.mem_coe.mpr new)))
    · exact sound.issued_child old
  · rcases mem_children_setPayload live member with ⟨-, new⟩ | old
    · exact (durable value new).elim sound.durable id
    · exact sound.durable old
  · rw [isLive_setPayload] at isLive
    exact sound.toShaped.pool_setPayload sameKind container scratch isLive

/-! ## New cells -/

theorem eq_or_isLive_of_create (consistent : heap.Consistent) {payload : Payload σ}
    {value : Value} (live : (heap.create payload).2.isLive value = true) :
    value = (heap.create payload).1 ∨ heap.isLive value = true := by
  simpa [isLive_create consistent] using live

theorem mem_children_create (consistent : heap.Consistent) {payload : Payload σ}
    {holder value : Value} (member : value ∈ (heap.create payload).2.children holder) :
    value ∈ payload.children ∨ value ∈ heap.children holder := by
  have live : (heap.create payload).2.isLive holder = true :=
    isLive_of_payload_ne fun absent => by simp [children, absent, Payload.children] at member
  rcases eq_or_isLive_of_create consistent live with rfl | before
  · rw [children, payload_create_self consistent] at member
    exact .inl member
  · rw [children, payload_create_of_issued consistent _ (consistent.issued before)] at member
    exact .inr member

theorem table?_create (consistent : heap.Consistent) {payload : Payload σ}
    {table : Value} {content : HashTable}
    (found : (heap.create payload).2.table? table = some content) :
    payload = .hash content ∨ heap.table? table = some content := by
  rcases eq_or_isLive_of_create consistent (isLive_of_table? found) with rfl | before
  · rw [table?_eq_some_iff, payload_create_self consistent] at found
    exact .inl found
  · rw [table?_eq_some_iff, payload_create_of_issued consistent _ (consistent.issued before),
      ← table?_eq_some_iff] at found
    exact .inr found

/-- A new cell takes its children from the ledger.  A new hash has no buckets. -/
theorem Sound.create {payload : Payload σ}
    (sound : heap.Sound (held + ↑payload.children))
    (durable : ∀ value ∈ payload.children, value.isScratch = false)
    (unbucketed : ∀ content, payload = .hash content → content.buckets = []) :
    (heap.create payload).2.Sound held := by
  have consistent := sound.toConsistent
  have table : ∀ {other content}, (heap.create payload).2.table? other = some content →
      content.buckets = [] ∨ heap.table? other = some content := fun found =>
    (table?_create consistent found).imp_left (unbucketed _)
  refine { consistent.create payload with
    refs_eq := fun {value} isLive => ?_
    issued_held := fun {value} member => ?_
    issued_child := fun {holder value} member => ?_
    durable := fun {holder value} member =>
      (mem_children_create consistent member).elim (durable value) sound.durable
    pool := fun {value} scratch isLive => ?_
    tables := fun {other content} found => ?_ }
  · rw [count_references_create consistent]
    rcases eq_or_isLive_of_create consistent isLive with rfl | before
    · have fresh := sound.toCounted.count_eq_zero (not_issued_create consistent payload)
      simp only [Multiset.count_add, Multiset.coe_count] at fresh
      have zero : (heap.create payload).2.refs (heap.create payload).1 = 0 := by
        simp [refs, cell?_create_self consistent]
      omega
    · rw [refs_eq_of_cell?_eq (cell?_create_of_issued consistent payload
        (consistent.issued before)), sound.refs_eq before, Multiset.count_add,
        Multiset.coe_count]
      omega
  · exact (sound.issued_held (Multiset.mem_add.mpr (.inl member))).create payload
  · refine Issued.create payload ?_
    rcases mem_children_create consistent member with new | old
    · exact sound.issued_held (Multiset.mem_add.mpr (.inr (Multiset.mem_coe.mpr new)))
    · exact sound.issued_child old
  · rcases eq_or_isLive_of_create consistent isLive with rfl | before
    · rw [isScratch_create] at scratch
      contradiction
    · rw [kind, payload_create_of_issued consistent _ (consistent.issued before)]
      exact sound.pool scratch before
  · rcases table found with empty | before
    · exact ⟨by simp [empty], by simp [empty], by simp [empty]⟩
    · refine (sound.tables before).congr (fun {bucket} _ isArray => ?_)
        (fun _ otherFound => (table otherFound).symm)
      rw [kind, payload_create_of_issued consistent _
        (consistent.issued (isLive_of_kind_ne (by rw [isArray]; decide)))]
      exact isArray

theorem cell?_createScratch_of_ne {payload : Payload σ} {value : Value}
    (different : value ≠ (heap.createScratch payload).1) :
    (heap.createScratch payload).2.cell? value = heap.cell? value := by
  rw [cell?_createScratch, if_neg different]

theorem payload_createScratch_of_ne {payload : Payload σ} {value : Value}
    (different : value ≠ (heap.createScratch payload).1) :
    (heap.createScratch payload).2.payload value = heap.payload value :=
  payload_eq_of_cell?_eq (cell?_createScratch_of_ne different)

theorem payload_createScratch_self (heap : Heap σ) (payload : Payload σ) :
    (heap.createScratch payload).2.payload (heap.createScratch payload).1 = payload := by
  have found : (heap.createScratch payload).2.cell? (heap.createScratch payload).1 =
      some { payload } := by
    rw [cell?_createScratch, if_pos rfl]
  exact payload_of_cell? found

theorem mem_children_createScratch {payload : Payload σ} (childless : payload.children = [])
    {holder value : Value} (member : value ∈ (heap.createScratch payload).2.children holder) :
    value ∈ heap.children holder := by
  by_cases isNew : holder = (heap.createScratch payload).1
  · rw [isNew, children, payload_createScratch_self, childless] at member
    simp at member
  · rwa [children, payload_createScratch_of_ne isNew] at member

theorem table?_createScratch {payload : Payload σ}
    (pooled : payload.isPlainData = true ∨ payload.kind = .array) {table : Value}
    {content : HashTable} (found : (heap.createScratch payload).2.table? table = some content) :
    heap.table? table = some content := by
  by_cases isNew : table = (heap.createScratch payload).1
  · rw [isNew, table?_eq_some_iff, payload_createScratch_self] at found
    simp [found, Payload.isPlainData, Payload.kind] at pooled
  · rwa [table?_eq_some_iff, payload_createScratch_of_ne isNew, ← table?_eq_some_iff] at found

theorem Sound.createScratch (sound : heap.Sound held) {payload : Payload σ}
    (childless : payload.children = [])
    (pooled : payload.isPlainData = true ∨ payload.kind = .array) :
    (heap.createScratch payload).2.Sound held := by
  have consistent := sound.toConsistent
  refine { consistent.createScratch payload with
    refs_eq := fun {value} isLive => ?_
    issued_held := fun member => (sound.issued_held member).createScratch payload
    issued_child := fun member =>
      (sound.issued_child (mem_children_createScratch childless member)).createScratch payload
    durable := fun member => sound.durable (mem_children_createScratch childless member)
    pool := fun {value} scratch isLive => ?_
    tables := fun {other content} found => ?_ }
  · rw [count_references_createScratch consistent, childless]
    by_cases isNew : value = (heap.createScratch payload).1
    · have fresh := sound.toCounted.count_eq_zero (not_issued_createScratch payload)
      rw [isNew, refs, cell?_createScratch, if_pos rfl]
      simp only [List.count_nil]
      omega
    · rw [isLive_createScratch] at isLive
      rw [refs_eq_of_cell?_eq (cell?_createScratch_of_ne isNew),
        sound.refs_eq (by simpa [isNew] using isLive)]
      simp
  · by_cases isNew : value = (heap.createScratch payload).1
    · rw [isNew, kind, payload_createScratch_self]
      exact pooled
    · rw [isLive_createScratch] at isLive
      rw [kind, payload_createScratch_of_ne isNew]
      exact sound.pool scratch (by simpa [isNew] using isLive)
  · refine (sound.tables (table?_createScratch pooled found)).congr (fun {bucket} _ isArray => ?_)
      (fun _ otherFound => .inl (table?_createScratch pooled otherFound))
    have issued := consistent.issued (isLive_of_kind_ne (by rw [isArray]; decide))
    have different : bucket ≠ (heap.createScratch payload).1 := by
      rintro rfl
      exact not_issued_createScratch payload issued
    rwa [kind, payload_createScratch_of_ne different]

/-! ## Cells that cease to be -/

/-- Cells may go that nothing refers to; the ledger gets what they held. -/
theorem Sound.of_gone (sound : heap.Sound held) (consistent : heap'.Consistent)
    (issued : ∀ {value}, heap.Issued value → heap'.Issued value)
    (remains : ∀ {value}, heap'.isLive value = true → heap'.cell? value = heap.cell? value)
    (kept : ∀ {value}, value ∈ heap.references → heap.isLive value = true →
      heap'.isLive value = true)
    {released : List Value}
    (count : ∀ value, heap.references.count value =
      heap'.references.count value + released.count value) :
    heap'.Sound (held + ↑released) := by
  have payload : ∀ {value}, heap'.isLive value = true →
      heap'.payload value = heap.payload value := fun live =>
    payload_eq_of_cell?_eq (remains live)
  have child : ∀ {holder value}, value ∈ heap'.children holder →
      value ∈ heap.children holder := by
    intro holder value member
    have live : heap'.isLive holder = true := isLive_of_payload_ne fun absent => by
      simp [children, absent, Payload.children] at member
    rwa [children_of_payload_eq (payload live)] at member
  have table : ∀ {other content}, heap'.table? other = some content →
      heap.table? other = some content := by
    intro other content found
    have live := isLive_of_table? found
    rwa [table?_eq_some_iff, payload live, ← table?_eq_some_iff] at found
  refine { consistent with
    refs_eq := fun {value} live => ?_
    issued_held := fun {value} member => issued ?_
    issued_child := fun member => issued (sound.issued_child (child member))
    durable := fun member => sound.durable (child member)
    pool := fun {value} scratch live => ?_
    tables := fun {other content} found => ?_ }
  · have before : heap.isLive value = true := by
      rwa [isLive_eq_of_cell?_eq (remains live)] at live
    rw [refs_eq_of_cell?_eq (remains live), sound.refs_eq before, count, Multiset.count_add,
      Multiset.coe_count]
    omega
  · rcases Multiset.mem_add.mp member with inHeld | gone
    · exact sound.issued_held inHeld
    · have positive := List.count_pos_iff.mpr (Multiset.mem_coe.mp gone)
      have total := count value
      exact sound.toCounted.issued_references (List.count_pos_iff.mp (by omega))
  · rw [kind, payload live]
    exact sound.pool scratch (by rwa [isLive_eq_of_cell?_eq (remains live)] at live)
  · refine (sound.tables (table found)).congr (fun {bucket} member isArray => ?_)
      (fun _ otherFound => .inl (table otherFound))
    have referenced : bucket ∈ heap.references :=
      mem_references (by rwa [children_of_table? (table found)])
    have live := kept referenced (isLive_of_kind_ne (by rw [isArray]; decide))
    rwa [kind, payload live]

/-- Emptying the slot of a cell that nobody holds. -/
theorem Sound.vacate (sound : heap.Sound held) {index : Nat} {cell : Cell σ}
    (occupied : heap.occupant? index = some cell) (zero : cell.refs = 0) :
    (heap.vacate index).Sound (held + ↑cell.payload.children) := by
  have found : heap.cell? (heap.occupantHandle index) = some cell := by
    rw [cell?_occupantHandle, occupied]
  have unreferenced := (sound.toCounted.exact.unreferenced (isLive_of_cell? found)
    (by simp [refs, found, zero])).2
  have other : ∀ {value}, value ≠ heap.occupantHandle index →
      (heap.vacate index).cell? value = heap.cell? value := by
    intro value different
    rw [cell?_vacate, if_neg different]
  refine sound.of_gone (sound.toConsistent.vacate occupied) (Issued.vacate index)
    (fun {value} live => other ?_) (fun {value} member live => ?_)
    (count_references_vacate occupied)
  · rintro rfl
    simp [isLive, cell?_vacate] at live
  · have different : value ≠ heap.occupantHandle index := by
      rintro rfl
      exact unreferenced member
    rwa [isLive_eq_of_cell?_eq (other different)]

/-- Dropping the end of the scratch pool. -/
theorem Sound.dropScratch (sound : heap.Sound held) (mark : Nat) :
    (heap.dropScratch mark).Sound
      (held + ↑((heap.scratch.toList.drop mark).flatMap
        fun slot => slot.cell.payload.children)) := by
  refine sound.of_gone (sound.toConsistent.dropScratch mark) (fun {value} issued => ?_)
    (cell?_dropScratch_of_isLive mark) (fun {value} member live => ?_)
    (count_references_dropScratch mark)
  · cases value <;> exact issued
  · obtain ⟨holder, -, child⟩ := mem_references_iff.mp member
    rwa [isLive_eq_of_cell?_eq (cell?_dropScratch_of_not_isScratch mark (sound.durable child))]

end Heap

end CountedHeap
