import CountedHeap.Proofs.PartWrites
import CountedHeap.Proofs.Scopes

/-!
Contract: the reference counts when a pair is stored, and the room that is asked for.

Up to the last write nothing that was there is retained or released: the buckets, the array of a
bucket and the key are new.  The last write retains the value and releases what it replaces.

Owns:
- `Quiet`, changes that leave the counts of what was there and make no array but a bucket;
- `Trades`, changes by which one value is retained and another is released;
- storing under a key as a trade.

Does not own: where the pair is put.
-/

namespace CountedHeap

namespace Heap

variable {σ : Signature} {heap heap' heap'' : Heap σ} {bound : Nat}
  {sequence table bucket key value element old retained released : Value}
  {items before after : List Value} {content : HashTable} {text : String}

/-! ## Counts that stay -/

/-- What was there is neither retained nor released, no scratch value is made, and nothing becomes
an array but perhaps a bucket. -/
structure Quiet (bucket : Value) (heap heap' : Heap σ) : Prop where
  consistent : heap'.Consistent
  issued : ∀ {value}, heap.Issued value → heap'.Issued value
  live : ∀ {value}, heap.Issued value → heap'.isLive value = heap.isLive value
  refs : ∀ {value}, heap.Issued value → heap'.refs value = heap.refs value
  serials : heap'.serials = heap.serials
  arrays : ∀ {value}, value ≠ bucket → heap.items? value = none → heap'.items? value = none

namespace Quiet

theorem refl (consistent : heap.Consistent) : Quiet bucket heap heap where
  consistent := consistent
  issued := id
  live := fun _ => rfl
  refs := fun _ => rfl
  serials := rfl
  arrays := fun _ => id

theorem trans (first : Quiet bucket heap heap') (second : Quiet bucket heap' heap'') :
    Quiet bucket heap heap'' where
  consistent := second.consistent
  issued := fun issued => second.issued (first.issued issued)
  live := fun issued => (second.live (first.issued issued)).trans (first.live issued)
  refs := fun issued => (second.refs (first.issued issued)).trans (first.refs issued)
  serials := second.serials.trans first.serials
  arrays := fun apart none => second.arrays apart (first.arrays apart none)

theorem setPayload (consistent : heap.Consistent) {target : Value} {payload : Payload σ}
    (plain : payload.items? = none ∨ target = bucket) :
    Quiet bucket heap (heap.setPayload target payload) where
  consistent := consistent.modifyCell _ _
  issued := (issued_setPayload _ _ _).mpr
  live := fun _ => isLive_setPayload _ _ _
  refs := fun _ => refs_setPayload _ _ _
  serials := serials_modifyCell _ _
  arrays := fun {value} apart none => by
    rw [items?, payload_setPayload]
    split
    next both => exact plain.resolve_right fun same => apart (both.1.trans same)
    next => exact none

theorem setTable (consistent : heap.Consistent) (table : Value) (content : HashTable) :
    Quiet bucket heap (heap.setTable table content) :=
  .setPayload consistent (.inl rfl)

theorem setChildren (consistent : heap.Consistent) (bucket : Value) (children : List Value) :
    Quiet bucket heap (heap.setChildren bucket children) := by
  rw [setChildren_eq_setPayload]
  exact .setPayload consistent (.inr rfl)

theorem create (consistent : heap.Consistent) {payload : Payload σ}
    (plain : payload.items? = none ∨ (heap.create payload).1 = bucket) :
    Quiet bucket heap (heap.create payload).2 where
  consistent := consistent.create payload
  issued := Issued.create payload
  live := fun issued => isLive_eq_of_cell?_eq (cell?_create_of_issued consistent payload issued)
  refs := fun issued => refs_eq_of_cell?_eq (cell?_create_of_issued consistent payload issued)
  serials := by
    unfold Heap.create
    split <;> rfl
  arrays := fun {value} apart none => by
    rw [items?, payload_create consistent]
    split
    next new => exact plain.resolve_right fun same => apart (new.trans same)
    next => exact none

/-- A value that is new may be retained. -/
theorem retain (quiet : Quiet bucket heap heap') (fresh : ¬heap.Issued value) :
    Quiet bucket heap (heap'.retain value) where
  consistent := quiet.consistent.modifyCell _ _
  issued := fun issued => (issued_retain _ _).mpr (quiet.issued issued)
  live := fun issued => (isLive_retain _ _).trans (quiet.live issued)
  refs := fun {other} issued => by
    have different : other ≠ value := fun same => fresh (same ▸ issued)
    rw [refs_retain, if_neg fun both => different both.1, Nat.add_zero, quiet.refs issued]
  serials := (serials_modifyCell _ _).trans quiet.serials
  arrays := fun apart none => by
    rw [items?, payload_retain]
    exact quiet.arrays apart none

theorem countPair (consistent : heap.Consistent) (isTable : heap.table? table = some content) :
    Quiet bucket heap (heap.countPair table) := by
  rw [countPair_of_found isTable]
  exact .setTable consistent table _

/-- The array of a bucket is made with a count of its own. -/
theorem bucketArray (consistent : heap.Consistent) (table : Value) (content : HashTable)
    (slot : Nat) : Quiet (heap.bucketArray table content slot).1 heap
      (heap.bucketArray table content slot).2 := by
  unfold Heap.bucketArray
  simp only
  split
  next => exact .refl consistent
  next =>
    let array : Payload σ := .array []
    have making : Quiet (heap.create array).1 heap
        ((heap.create array).2.retain (heap.create array).1) :=
      (Quiet.create consistent (.inr rfl)).retain (not_issued_create consistent array)
    exact making.trans (.setTable making.consistent table _)

end Quiet

/-! ## Storing an element -/

/-- Storing an element at a place that exists asks for no room. -/
theorem setItem_at (consistent : heap.Consistent)
    (found : heap.items? sequence = some (before ++ old :: after)) (element : Value) :
    heap.setItem sequence element before.length =
      .ok (old, (((heap.own element).2.setChildren sequence
        (before ++ (heap.own element).1 :: after)).retain (heap.own element).1).release old) := by
  have place : heap.itemPosition? sequence before.length = some before.length := by
    rw [itemPosition?_of_items? found, position?_ofNat]
  have kept := (Rewrites.own consistent found element).items? found
  have enough : before.length + 1 ≤ (before ++ old :: after).length := by simp
  simp only [setItem, place, kept, padTo_of_le enough, bind, Except.bind, replaceItem]
  rw [List.getElem?_append_right le_rfl, Nat.sub_self, List.getElem?_cons_zero, Option.getD_some,
    List.set_append_right _ _ le_rfl, Nat.sub_self, List.set_cons_zero]
  rfl

/-- The key of a new pair is a new string, which is retained. -/
theorem quiet_storeKey (consistent : heap.Consistent)
    (gap : heap.items? bucket = some (before ++ .null :: .null :: after))
    (scratch : key.isScratch = true) (named : heap.payload key = .text text) :
    ∃ keyed, heap.setItem bucket key before.length = .ok (.null, keyed) ∧
      Quiet bucket heap keyed := by
  refine ⟨_, setItem_at consistent gap key, ?_⟩
  rw [own_of_text scratch named]
  have making : Quiet bucket heap (heap.create (.text text)).2 := .create consistent (.inl rfl)
  have storing := making.trans (.setChildren making.consistent bucket
    (before ++ (heap.create (.text text)).1 :: .null :: after))
  exact storing.retain (not_issued_create consistent _)

/-- A value is retained and then another is released, no scratch value is made, and nothing becomes
an array but perhaps a bucket. -/
structure Trades (bucket : Value) (heap heap' : Heap σ) (retained released : Value) : Prop where
  refs : ∀ {value}, heap.Issued value → heap'.refs value =
    heap.refs value + (if value = retained then 1 else 0) - if value = released then 1 else 0
  serials : heap'.serials = heap.serials
  arrays : ∀ {value}, value ≠ bucket → heap.items? value = none → heap'.items? value = none

theorem Quiet.trades (quiet : Quiet bucket heap heap')
    (trades : Trades bucket heap' heap'' retained released) :
    Trades bucket heap heap'' retained released where
  refs := fun issued => by rw [trades.refs (quiet.issued issued), quiet.refs issued]
  serials := trades.serials.trans quiet.serials
  arrays := fun apart none => trades.arrays apart (quiet.arrays apart none)

/-- A long-lived element is stored as it is, in trade for the one that was there. -/
theorem trades_setItem (consistent : heap.Consistent)
    (found : heap.items? sequence = some (before ++ old :: after))
    (durable : element.isScratch = false) (live : heap.isLive element = true) :
    ∃ heap', heap.setItem sequence element before.length = .ok (old, heap') ∧
      Trades sequence heap heap' element old ∧
      ∀ other, other ≠ sequence → heap'.payload other = heap.payload other := by
  refine ⟨_, setItem_at consistent found element, ?_⟩
  rw [own_of_not_isScratch durable]
  have others : ∀ other, other ≠ sequence →
      (((heap.setChildren sequence (before ++ element :: after)).retain element).release
        old).payload other = heap.payload other := by
    intro other apart
    rw [payload_release, payload_retain, setChildren_eq_setPayload, payload_setPayload,
      if_neg fun both => apart both.1]
  refine ⟨⟨fun {value} _ => ?_, ?_, fun {value} apart none => ?_⟩, others⟩
  · rw [refs_release, refs_retain, setChildren_eq_setPayload, refs_setPayload, isLive_setPayload]
    simp only [live, and_true]
  · exact ((serials_modifyCell _ _).trans (serials_modifyCell _ _)).trans (serials_modifyCell _ _)
  · rwa [items?, others value apart]

/-! ## Storing a pair -/

/-- Inserting a pair asks for room for two items more, and trades the value for nothing. -/
theorem within_insertPair (consistent : heap.Consistent)
    (isTable : heap.table? table = some content)
    (isBucket : heap.items? bucket = some (before ++ after)) (scratch : key.isScratch = true)
    (named : heap.payload key = .text text) (durable : value.isScratch = false)
    (live : heap.isLive value = true) (room : (before ++ after).length + 2 ≤ bound) :
    EndsWithin bound (do
      let (_, expanded) ← heap.expandItems bucket before.length 2
      let (_, keyed) ← expanded.setItem bucket key before.length
      (keyed.countPair table).setItem bucket value (before.length + 1 : Nat)) fun result =>
        Trades bucket heap result.2 value result.1 ∧
          ∃ pairs, result.2.table? table = some { content with pairs } := by
  have different := ne_of_table?_of_items? isTable isBucket
  have issuedTable := consistent.issued (isLive_of_table? isTable)
  have issuedValue := consistent.issued live
  have apart : key ≠ bucket := by
    rintro rfl
    rw [Heap.items?, named] at isBucket
    contradiction
  apply (ends_expandItems isBucket 2 room).bind
  rintro ⟨grown, expanded⟩ rfl
  let gapped := before ++ .null :: .null :: after
  have whole : before ++ List.replicate 2 .null ++ after = gapped := by
    rw [List.append_assoc]
    rfl
  rw [whole]
  have opening : Quiet bucket heap (heap.setChildren bucket gapped) :=
    .setChildren consistent bucket gapped
  have rewriting := Rewrites.setItems consistent isBucket gapped
  have gap := rewriting.items? isBucket
  have named' := (rewriting.others
    (consistent.issued (isLive_of_payload_text named)) apart).trans named
  have isTable' := ((Alters.of_rewrites rewriting).table? issuedTable different).trans isTable
  dsimp only
  revert opening gap named' isTable'
  generalize heap.setChildren bucket gapped = expanded
  intro opening gap named' isTable'
  obtain ⟨keyed, done, keying⟩ := quiet_storeKey opening.consistent gap scratch named'
  have stores := ends_storeKey bound opening.consistent gap scratch named'
  rw [done] at stores ⊢
  cases stores with
  | ended holds =>
      obtain ⟨altering, name, -, -, there⟩ := holds
      have isTable'' : keyed.table? table = some content :=
        (altering.table? (opening.issued issuedTable) different).trans isTable'
      have quiet := (opening.trans keying).trans (.countPair keying.consistent isTable'')
      have there' : (keyed.countPair table).items? bucket =
          some ((before ++ [name]) ++ .null :: after) := by
        rw [countPair_of_found isTable'', Heap.items?, payload_setTable_of_ne (Ne.symm different),
          ← Heap.items?, there]
        simp
      obtain ⟨last, stored, trade, others⟩ := trades_setItem quiet.consistent there' durable
        ((quiet.live issuedValue).trans live)
      rw [List.length_append, List.length_singleton] at stored
      show EndsWithin bound ((keyed.countPair table).setItem bucket value _) _
      rw [stored]
      refine .ended ⟨quiet.trades trade, content.pairs + 1, ?_⟩
      rw [Heap.table?, others table different, ← Heap.table?, countPair_of_found isTable'',
        table?_setTable isTable'']

/-- Storing a long-lived value under a scratch key trades it for what was there.  It asks for room
for the buckets if there are none, and for one pair more. -/
theorem within_setKey (consistent : heap.Consistent) (isTable : heap.table? table = some content)
    (scratch : key.isScratch = true) (named : heap.payload key = .text text)
    (durable : value.isScratch = false) (live : heap.isLive value = true)
    (slots : content.buckets = [] → max heap.config.hashBuckets 1 ≤ bound)
    (room : (heap.searched table text).length + 2 ≤ bound) :
    EndsWithin bound (heap.setKey table key value) fun result =>
      ∃ bucket, result.2.bucketFor? table text = some bucket ∧
        Trades bucket heap result.2 value result.1 := by
  simp only [setKey, isTable, text_of_payload_text named]
  apply (ends_allocatedBuckets slots).bind
  rintro buckets rfl
  let slot := Text.bucketOf text (heap.bucketsOf content).length
  let allocated := heap.setTable table { content with buckets := heap.bucketsOf content }
  have consistent' : allocated.Consistent := consistent.modifyCell _ _
  have preparing := (Quiet.setTable consistent table _).trans (.bucketArray consistent' table
    { content with buckets := heap.bucketsOf content } slot)
  obtain ⟨items, prepares⟩ := exists_prepares consistent isTable slot
  have searched := prepares.bucketFor.searched_eq isTable
  revert preparing prepares
  generalize allocated.bucketArray table { content with buckets := heap.bucketsOf content } slot =
    prepared
  obtain ⟨bucket, ready⟩ := prepared
  intro preparing prepares
  simp only [prepares.isBucket]
  have different := ne_of_table?_of_items? prepares.isTable prepares.isBucket
  have inside := Text.bucketOf_lt text (List.length_pos_of_ne_nil (heap.bucketsOf_ne_nil content))
  have place : ((heap.bucketsOf content).set slot bucket)[
      Text.bucketOf text ((heap.bucketsOf content).set slot bucket).length]? = some bucket := by
    rw [List.length_set, List.getElem?_set_self inside]
  have live' := (preparing.live (consistent.issued live)).trans live
  cases sought : ready.seekKey items text with
  | found index =>
      obtain ⟨before, pairKey, old, after, rfl, rfl⟩ :=
        exists_pair_at (Records.lt_length_of_seek_found sought)
      have there : ready.items? bucket = some ((before ++ [pairKey]) ++ old :: after) := by
        rw [prepares.isBucket]
        simp
      obtain ⟨last, stored, trade, others⟩ :=
        trades_setItem preparing.consistent there durable live'
      rw [List.length_append, List.length_singleton] at stored
      dsimp only
      rw [stored]
      refine .ended ⟨bucket, ?_, preparing.trades trade⟩
      rw [bucketFor?, Heap.table?, others table different, ← Heap.table?, prepares.isTable]
      exact place
  | missing index =>
      obtain ⟨before, after, rfl, rfl⟩ := exists_cut_at (Records.le_length_of_seek_missing sought)
      have issuedKey := consistent.issued (isLive_of_payload_text named)
      have apart : key ∉ ({table} : Set Value) := by
        rintro rfl
        rw [table?_eq_some_iff, named] at isTable
        contradiction
      rw [searched] at room
      apply (within_insertPair preparing.consistent prepares.isTable prepares.isBucket scratch
        ((prepares.alters.payload issuedKey apart).trans named) durable live' room).mono
      rintro result ⟨trade, pairs, isTable'⟩
      refine ⟨bucket, ?_, preparing.trades trade⟩
      rw [bucketFor?, isTable']
      exact place

end Heap

end CountedHeap
