import CountedHeap.Proofs.CopyTexts
import CountedHeap.Proofs.PartWrites

/-!
Contract: what is stored of a scratch value.

A scratch value is stored as a copy, which is written as the value was when it was copied.
Replacing and inserting an element make the copy first.  A splice has taken elements out and opened
a gap by then, and a new pair already has its place and its key and is counted.  So a value from
which the written container is reached is copied with the container half-written.

Owns:
- a copy keeps its text when older containers are written;
- `StoresCopy`, a value that is copied in the middle of an operation, and when the copy has the
  text that the value had before the operation;
- what replacing, inserting, pushing, splicing and storing under a key store of a value.
-/

namespace CountedHeap.Heap

variable {σ : Signature} {heap heap' heap'' source : Heap σ} {cells cells' : Set Value}
  {sequence table bucket key value element stored : Value} {items : List Value}
  {content : HashTable} {text : String} {bound : Nat}

/-! ## Copies that stay -/

/-- Where payloads below a value stay, nothing else comes to be below it. -/
theorem Below.of_payload_eq {other : Value}
    (same : ∀ {other}, heap.Below value other → heap'.payload other = heap.payload other)
    (below : heap'.Below value other) : heap.Below value other := by
  induction below with
  | refl => exact .refl
  | tail _ member inductionHypothesis =>
      rw [children_of_payload_eq (same inductionHypothesis)] at member
      exact .tail inductionHypothesis member

/-- What names nothing in the end named nothing before. -/
theorem Alters.not_isLive (alters : Alters cells heap heap') (consistent : heap.Consistent)
    (absent : heap'.isLive value = false) : heap.isLive value = false := by
  apply eq_false_of_ne_true
  intro live
  rw [alters.live (consistent.issued live), live] at absent
  contradiction

/-- A long-lived value with a text, below which there is no container of `source`. -/
structure CopiedFrom (source heap : Heap σ) (text : String) (stored : Value) : Prop where
  durable : stored.isScratch = false
  text_eq : heap.text stored = text
  apart : ∀ {other}, heap.Below stored other →
    heap.Issued other ∧ ((heap.kind other).isMulti = true → ¬source.Issued other)

/-- Owning a scratch value makes a copy with its text. -/
theorem copiedFrom_own (proper : heap.Proper True) (scratch : value.isScratch = true)
    (settled : heap.Settled (heap.own value).2 value) :
    CopiedFrom heap (heap.own value).2 (heap.text value) (heap.own value).1 := by
  have durable := isScratch_own heap value
  have consistent := proper.toConsistent
  have consistent' := consistent.own value
  have grows := Grows.own consistent value
  rw [own, if_pos scratch] at settled durable consistent' grows ⊢
  obtain ⟨copies, finished⟩ := finished_clone proper settled
  have graph := finished.sameGraph consistent
  refine ⟨durable, graph.text_eq grows consistent, fun below => ?_⟩
  obtain ⟨other, stands⟩ := graph.exists_stands grows consistent below
  exact graph.issued_image grows consistent consistent' stands

/-- A copy stays as it is when containers that are older than it are written. -/
theorem CopiedFrom.later (copied : CopiedFrom source heap text stored)
    (alters : Alters cells heap heap')
    (older : ∀ cell ∈ cells, source.Issued cell ∧ (heap.kind cell).isMulti = true) :
    CopiedFrom source heap' text stored := by
  have same : ∀ {other}, heap.Below stored other → heap'.payload other = heap.payload other := by
    intro other below
    obtain ⟨issued, apart⟩ := copied.apart below
    apply alters.payload issued
    intro written
    obtain ⟨isOlder, multi⟩ := older other written
    exact apart multi isOlder
  refine ⟨copied.durable, ?_, fun {other} below => ?_⟩
  · rw [← copied.text_eq]
    exact text_eq_of_below same
  · have before := below.of_payload_eq same
    obtain ⟨issued, apart⟩ := copied.apart before
    refine ⟨alters.issued issued, fun multi => apart ?_⟩
    rwa [kind, ← same before, ← kind]

/-! ## Copies that are made in the middle of an operation -/

/-- A value is owned in the middle of an operation: before that only the given cells were written,
and after it only containers that were there. -/
def StoresCopy (heap heap' : Heap σ) (cells : Set Value) (value stored : Value) : Prop :=
  ∃ (between : Heap σ) (written : Set Value), between.Proper True ∧ Alters cells heap between ∧
    stored = (between.own value).1 ∧ Alters written (between.own value).2 heap' ∧
    ∀ cell ∈ written, (between.kind cell).isMulti = true

/-- Something was written before the operation. -/
theorem StoresCopy.after (stores : heap'.StoresCopy heap'' cells' value stored)
    (alters : Alters cells heap heap')
    (covered : ∀ {cell}, heap.Issued cell → cell ∈ cells' → cell ∈ cells) :
    heap.StoresCopy heap'' cells value stored := by
  obtain ⟨between, written, proper, before, owned, after, containers⟩ := stores
  exact ⟨between, written, proper, alters.trans before covered, owned, after, containers⟩

/-- A scratch value is copied as it was before the operation, if nothing was written that is below
it. -/
theorem StoresCopy.text_eq (stores : heap.StoresCopy heap' cells value stored)
    (consistent : heap.Consistent) (scratch : value.isScratch = true)
    (settled : heap.Settled heap' value) (apart : ∀ cell ∈ cells, ¬heap.Below value cell) :
    stored.isScratch = false ∧ heap'.text stored = heap.text value := by
  obtain ⟨between, written, proper, before, rfl, after, containers⟩ := stores
  have consistent' := proper.toConsistent
  have owning : Alters ∅ between (between.own value).2 := .own consistent' value
  have stale : ∀ {other}, heap'.isLive other = false → between.isLive other = false :=
    fun absent => owning.not_isLive consistent' (after.not_isLive owning.consistent absent)
  have same : ∀ {other}, heap.Below value other → between.payload other = heap.payload other := by
    intro other below
    rcases settled other below with issued | absent
    · exact before.payload issued fun member => apart other member below
    · rw [payload_of_not_isLive (stale absent),
        payload_of_not_isLive (before.not_isLive consistent (stale absent))]
  have settled' : between.Settled (between.own value).2 value := by
    intro other below
    rcases settled other (below.of_payload_eq same) with issued | absent
    · exact .inl (before.issued issued)
    · exact .inr (after.not_isLive owning.consistent absent)
  have older : ∀ cell ∈ written,
      between.Issued cell ∧ ((between.own value).2.kind cell).isMulti = true := by
    intro cell member
    have multi := containers cell member
    have issued := consistent'.issued (isLive_of_isMulti multi)
    rw [kind, owning.payload issued (Set.notMem_empty _)]
    exact ⟨issued, multi⟩
  have copied := (copiedFrom_own proper scratch settled').later after older
  exact ⟨copied.durable, copied.text_eq.trans (text_eq_of_below same)⟩

/-- At a position of a sequence there is what an operation stored of a value. -/
def StoresAt (heap heap' : Heap σ) (cells : Set Value) (sequence : Value) (index : Nat)
    (value : Value) : Prop :=
  ∃ items stored, heap'.items? sequence = some items ∧ items[index]? = some stored ∧
    heap.StoresCopy heap' cells value stored

/-- At a position of a sequence there is a long-lived value with a text. -/
def HoldsText (heap : Heap σ) (sequence : Value) (index : Nat) (text : String) : Prop :=
  ∃ items stored, heap.items? sequence = some items ∧ items[index]? = some stored ∧
    stored.isScratch = false ∧ heap.text stored = text

theorem StoresAt.after {index : Nat} (stores : heap'.StoresAt heap'' cells' sequence index value)
    (alters : Alters cells heap heap')
    (covered : ∀ {cell}, heap.Issued cell → cell ∈ cells' → cell ∈ cells) :
    heap.StoresAt heap'' cells sequence index value := by
  obtain ⟨items, stored, found, place, copy⟩ := stores
  exact ⟨items, stored, found, place, copy.after alters covered⟩

theorem StoresAt.holdsText {index : Nat} (stores : heap.StoresAt heap' cells sequence index value)
    (consistent : heap.Consistent) (scratch : value.isScratch = true)
    (apart : ∀ cell ∈ cells, ¬heap.Below value cell) (settled : heap.Settled heap' value) :
    heap'.HoldsText sequence index (heap.text value) := by
  obtain ⟨items, stored, found, place, copy⟩ := stores
  obtain ⟨durable, text⟩ := copy.text_eq consistent scratch settled apart
  exact ⟨items, stored, found, place, durable, text⟩

/-! ## Elements -/

theorem getElem?_set_padded (items : List Value) (index : Nat) (stored : Value) :
    ((padded (index + 1) items).set index stored)[index]? = some stored := by
  apply List.getElem?_set_self
  rw [length_padded]
  omega

/-- Storing an element copies it before anything is written. -/
theorem ends_setItem_storesAt (proper : heap.Proper True)
    (found : heap.items? sequence = some items) (element : Value) {offset : Int} {index : Nat}
    (position : position? items.length offset = some index) :
    EndsWithin (index + 1) (heap.setItem sequence element offset) fun result =>
      heap.StoresAt result.2 ∅ sequence index element ∧ Alters {sequence} heap result.2 := by
  have consistent := proper.toConsistent
  have kept := (Rewrites.own consistent found element).items? found
  apply (ends_setItem consistent found element position).mono
  rintro ⟨old, last⟩ ⟨-, storing⟩
  have writing := Alters.of_rewrites storing
  refine ⟨⟨_, _, storing.items? kept, getElem?_set_padded items index _, heap, {sequence}, proper,
    .refl _ consistent, rfl, writing, ?_⟩, writing.afterMaking (.own consistent element)⟩
  rintro cell rfl
  exact isMulti_of_items? found

/-- Opening a gap ends, or there is no room for it or for the padding before it. -/
theorem ends_expandItems_at (found : heap.items? sequence = some items) {offset : Int}
    {index : Nat} (position : position? items.length offset = some index) (count : Nat) :
    EndsWithin (max items.length index + count) (heap.expandItems sequence offset count)
      fun result =>
      result.2 = heap.setChildren sequence ((padded index items).take index ++
        List.replicate count .null ++ items.drop index) := by
  by_cases fits : Fits items (max items.length index + count)
  · rw [expandItems_eq found position fits]
    exact .ended rfl
  · simp only [Heap.expandItems, found, position]
    apply ((ends_padTo index items).widen (by omega)).attach.bind
    rintro _ ⟨reached, rfl⟩
    apply ((ends_padTo _ _).widen (by rw [length_padded])).attach.bind
    rintro _ ⟨grown, -⟩
    obtain ⟨fitsIndex, -⟩ := padTo_eq_ok_iff.mp reached
    obtain ⟨fitsGap, -⟩ := padTo_eq_ok_iff.mp grown
    rw [length_padded] at fitsGap
    exact absurd (by unfold Fits; omega) fits

/-- Inserting an element copies it before anything is written. -/
theorem ends_insertItem_storesAt (proper : heap.Proper True)
    (found : heap.items? sequence = some items) (element : Value) {offset : Int} {index : Nat}
    (position : position? items.length offset = some index) :
    EndsWithin (max items.length index + 1) (heap.insertItem sequence element offset) fun result =>
      heap.StoresAt result.2 ∅ sequence index element := by
  have consistent := proper.toConsistent
  have owning := Rewrites.own consistent found element
  have kept := owning.items? found
  simp only [Heap.insertItem, itemPosition?_of_items? found, position]
  apply (ends_expandItems_at kept (position?_ofNat _ index) 1).bind
  rintro ⟨grown, expanded⟩ rfl
  have opening := Rewrites.setItems owning.consistent kept ((padded index items).take index ++
    List.replicate 1 .null ++ items.drop index)
  have opened := opening.items? kept
  apply ((ends_setItem opening.consistent opened (heap.own element).1
    (position?_ofNat _ index)).widen (by omega)).bind
  rintro ⟨old, last⟩ ⟨-, storing⟩
  -- The copy is long-lived, so it is stored as it is.
  rw [own_of_not_isScratch (isScratch_own heap element)] at storing
  refine .ended ⟨_, _, storing.items? opened, getElem?_set_padded _ index _, heap, {sequence},
    proper, .refl _ consistent, rfl, .of_rewrites (opening.trans storing), ?_⟩
  rintro cell rfl
  exact isMulti_of_items? found

theorem ends_pushItem_storesAt (proper : heap.Proper True)
    (found : heap.items? sequence = some items) (element : Value) :
    EndsWithin (items.length + 1) (heap.pushItem sequence element) fun result =>
      heap.StoresAt result.2 ∅ sequence items.length element := by
  have length : heap.size sequence = items.length := by
    rcases payload_of_items? found with array | program
    · rw [size, array]
    · rw [size, program]
  rw [pushItem, length]
  have inserting :=
    ends_insertItem_storesAt proper found element (position?_ofNat items.length items.length)
  rwa [Nat.max_self] at inserting

/-! ## Splices -/

/-- Elements that are stored one after another are copied one after another, each when the sequence
has those before it. -/
theorem ends_setItemsFrom_storesAt (proper : heap.Proper True)
    (found : heap.items? sequence = some items) (index : Nat) (elements : List Value) :
    EndsWithin (index + elements.length) (setItemsFrom sequence index elements heap) fun after =>
      Alters {sequence} heap after ∧ ∃ items', after.items? sequence = some items' ∧
        (∀ place < index, place < items.length → items'[place]? = items[place]?) ∧
        ∀ place element, elements[place]? = some element →
          heap.StoresAt after {sequence} sequence (index + place) element := by
  induction elements generalizing heap items index with
  | nil =>
      exact .ended ⟨.refl _ proper.toConsistent, items, found, fun _ _ _ => rfl, nofun⟩
  | cons element rest inductionHypothesis =>
      have consistent := proper.toConsistent
      have kept := (Rewrites.own consistent found element).items? found
      rw [setItemsFrom]
      rw [List.length_cons]
      apply ((ends_setItem consistent found element (position?_ofNat _ index)).widen
        (by omega)).attach.bind
      rintro ⟨old, next⟩ ⟨done, -, storing⟩
      have leads : Leads True 0 heap next := .setItem done
      have there := storing.items? kept
      have writing := Alters.of_rewrites storing
      have first : Alters {sequence} heap next := writing.afterMaking (.own consistent element)
      apply ((inductionHypothesis (leads.proper proper) there (index + 1)).widen (by omega)).mono
      rintro after ⟨others, items', found', same, each⟩
      refine ⟨first.trans others fun _ => id, items', found', fun place less inside => ?_,
        fun place other isElement => ?_⟩
      · rw [same place (by omega) (by rw [List.length_set, length_padded]; omega),
          List.getElem?_set_ne (by omega), padded, List.getElem?_append_left inside]
      · cases place with
        | zero =>
            obtain rfl : element = other := by simpa using isElement
            refine ⟨items', _, found', ?_, heap, {sequence}, proper, .refl _ consistent, rfl,
              writing.trans others fun _ => id, ?_⟩
            · have inside :
                  index < ((padded (index + 1) items).set index (heap.own element).1).length := by
                rw [List.length_set, length_padded]
                omega
              rw [Nat.add_zero, same index (Nat.lt_succ_self index) inside, getElem?_set_padded]
            · rintro cell rfl
              exact isMulti_of_items? found
        | succ place =>
            have stored := each place other (by simpa using isElement)
            rw [Nat.add_right_comm] at stored
            exact stored.after first fun _ => id

/-- A slice makes cells only, whatever the items are. -/
theorem grows_sliceItems (consistent : heap.Consistent) (sequence : Value) (offset : Int)
    (count : Nat) : (heap.sliceItems sequence offset count).2.Consistent ∧
      Grows heap (heap.sliceItems sequence offset count).2 := by
  have making : ∀ values, (heap.arrayOf values).2.Consistent ∧
      Grows heap (heap.arrayOf values).2 := by
    intro values
    obtain ⟨owned, growing⟩ := grows_ownAll consistent values
    exact ⟨owned.create _, growing.trans (.create owned _)⟩
  unfold Heap.sliceItems
  split
  next => exact ⟨consistent, .refl heap⟩
  next =>
    split
    next => exact making []
    next => exact making _

/-- A splice copies the elements after the sequence was written. -/
theorem ends_spliceItems_storesAt (proper : heap.Proper True)
    (found : heap.items? sequence = some items) {offset : Int} {index : Nat}
    (position : position? items.length offset = some index) (count : Nat) (inserted : List Value) :
    EndsWithin (max (items.take index ++ items.drop (index + count)).length index + inserted.length)
      (heap.spliceItems sequence offset count inserted) fun result =>
      ∀ place element, inserted[place]? = some element →
        heap.StoresAt result.2 {sequence} sequence (index + place) element := by
  have consistent := proper.toConsistent
  simp only [Heap.spliceItems, itemPosition?_of_items? found, position]
  obtain ⟨consistentSliced, growing⟩ := grows_sliceItems consistent sequence index count
  have slicing : Alters {sequence} heap (heap.sliceItems sequence index count).2 :=
    .of_grows growing consistentSliced
  have sliced := (growing.rewrites consistent consistentSliced found).items? found
  have closing := Rewrites.collapseItems consistentSliced sliced (position?_ofNat _ index) count
  have closed := closing.items? sliced
  have leads : Leads True 0 heap _ :=
    (Leads.sliceItems heap sequence index count).trans (.collapseItems _ sequence index count)
  apply (ends_expandItems_at closed (position?_ofNat _ index) inserted.length).attach.bind
  rintro ⟨grown, expanded⟩ ⟨done, rfl⟩
  have opening := Rewrites.setItems closing.consistent closed
    ((padded index (items.take index ++ items.drop (index + count))).take index ++
      List.replicate inserted.length .null ++
      (items.take index ++ items.drop (index + count)).drop index)
  have opened : Alters {sequence} heap _ :=
    slicing.trans (.of_rewrites (closing.trans opening)) fun _ => id
  apply ((ends_setItemsFrom_storesAt ((leads.trans (.expandItems done)).proper proper)
    (opening.items? closed) index inserted).widen
      (Nat.add_le_add_right (le_max_right _ _) _)).bind
  rintro after ⟨-, items', found', -, each⟩
  exact .ended fun place element isElement =>
    (each place element isElement).after opened fun _ => id

/-! ## Pairs -/

/-- What is written for a new pair: the table, and the bucket of the text. -/
def pairCells (heap : Heap σ) (table : Value) (text : String) : Set Value :=
  {cell | cell = table ∨ heap.bucketFor? table text = some cell}

theorem hasKey_iff (table key : Value) : heap.hasKey table key = true ↔
    ∃ index, heap.seekKey (heap.searched table (heap.text key)) (heap.text key) = .found index := by
  unfold hasKey locate? searched bucketFor?
  cases heap.table? table with
  | none => simp [seekKey_nil]
  | some content =>
      dsimp only [Option.bind_some]
      cases content.buckets[Text.bucketOf (heap.text key) content.buckets.length]? with
      | none => simp [seekKey_nil]
      | some bucket =>
          dsimp only [Option.bind_some]
          cases heap.items? bucket with
          | none => simp [seekKey_nil]
          | some items =>
              dsimp only [Option.getD_some]
              cases heap.seekKey items (heap.text key) <;> simp

/-- The bucket of a text in a table where it has just been put in its slot. -/
theorem bucketFor?_of_set {pairs : Nat} (found : heap'.table? table = some
      { buckets := (heap.bucketsOf content).set
          (Text.bucketOf text (heap.bucketsOf content).length) bucket, pairs }) :
    heap'.bucketFor? table text = some bucket := by
  rw [bucketFor?_of_table? found, List.length_set]
  exact List.getElem?_set_self
    (Text.bucketOf_lt text (List.length_pos_iff.mpr (bucketsOf_ne_nil content)))

/-- A bucket that was there is the one that is searched, and one that is made was not there. -/
theorem BucketFor.bucketFor?_eq (isTable : heap.table? table = some content)
    (bucketFor : heap.BucketFor (heap.bucketsOf content)
      (Text.bucketOf text (heap.bucketsOf content).length) bucket items)
    (issued : heap.Issued bucket) : heap.bucketFor? table text = some bucket := by
  cases bucketFor with
  | there place found =>
      rw [bucketsOf_of_items? place found] at place
      rw [bucketFor?_of_table? isTable, place]
  | made fresh => exact absurd issued fresh

/-- The value of a pair is replaced: it is copied before anything is written. -/
theorem ends_replacePair_storesAt (proper : heap.Proper True)
    (prepares : heap.Prepares table content
      (Text.bucketOf text (heap.bucketsOf content).length) bucket items heap')
    {index : Nat} (sought : heap'.seekKey items text = .found index) (value : Value)
    (room : items.length + 2 ≤ bound) :
    EndsWithin bound (heap'.setItem bucket value (index + 1 : Nat)) fun result =>
      result.2.bucketFor? table text = some bucket ∧
        heap.seekKey items text = .found index ∧
        heap.StoresAt result.2 ∅ bucket (index + 1) value := by
  have inside := Records.lt_length_of_seek_found sought
  have nonempty : items ≠ [] := by
    intro empty
    rw [empty] at inside
    contradiction
  obtain rfl := prepares.unchanged nonempty
  have isTable := prepares.isTable
  have issued := proper.toConsistent.issued (isLive_of_table? isTable)
  apply ((ends_setItem_storesAt proper prepares.isBucket value
    (position?_ofNat _ (index + 1))).widen (by omega)).mono
  rintro ⟨old, last⟩ ⟨stored, writing⟩
  have kept := writing.table? issued (ne_of_table?_of_items? isTable prepares.isBucket)
  exact ⟨bucketFor?_of_set (kept.trans isTable), sought, stored⟩

/-- A pair is counted, and its value is stored. -/
theorem ends_countPair_storesAt (proper : heap.Proper True)
    (isTable : heap.table? table = some content) (isBucket : heap.items? bucket = some items)
    (value : Value) (place : Nat) :
    EndsWithin (place + 1) ((heap.countPair table).setItem bucket value place) fun result =>
      heap.StoresAt result.2 {table} bucket place value ∧
        result.2.table? table = some { content with pairs := content.pairs + 1 } := by
  have consistent := proper.toConsistent
  have different := ne_of_table?_of_items? isTable isBucket
  have leads : Leads True 0 heap (heap.countPair table) := .countPair heap table
  have counted := leads.proper proper
  rw [countPair_of_found isTable] at counted ⊢
  have counting : Alters {table} heap
      (heap.setTable table { content with pairs := content.pairs + 1 }) :=
    .setTable consistent table _
  have there := counting.items? (consistent.issued (isLive_of_items? isBucket)) (Ne.symm different)
  apply (ends_setItem_storesAt counted (there.trans isBucket) value
    (position?_ofNat _ place)).mono
  rintro ⟨old, last⟩ ⟨stored, writing⟩
  refine ⟨stored.after counting fun _ => False.elim, ?_⟩
  have issued := counting.issued (consistent.issued (isLive_of_table? isTable))
  rw [writing.table? issued different, table?_setTable isTable]

/-- A pair is inserted: its value is copied when its place is open, its key is stored, and it is
counted. -/
theorem ends_addPair_storesAt (consistent : heap.Consistent)
    (isTable : heap.table? table = some content) (proper : heap'.Proper True)
    (prepares : heap.Prepares table content
      (Text.bucketOf text (heap.bucketsOf content).length) bucket items heap')
    {index : Nat} (sought : heap'.seekKey items text = .missing index) (key value : Value)
    (room : items.length + 2 ≤ bound) :
    EndsWithin bound (do
      let (_, expanded) ← heap'.expandItems bucket index 2
      let (_, keyed) ← expanded.setItem bucket key index
      (keyed.countPair table).setItem bucket value (index + 1 : Nat)) fun result =>
      result.2.bucketFor? table text = some bucket ∧
        heap.seekKey items text = .missing index ∧
        heap.StoresAt result.2 (heap.pairCells table text) bucket (index + 1) value := by
  obtain ⟨before, after, rfl, rfl⟩ := exists_cut_at (Records.le_length_of_seek_missing sought)
  have sought' : heap.seekKey (before ++ after) text = .missing before.length := by
    by_cases empty : before ++ after = []
    · obtain ⟨rfl, rfl⟩ := List.append_eq_nil_iff.mp empty
      exact seekKey_nil heap text
    · rwa [prepares.unchanged empty] at sought
  have different := ne_of_table?_of_items? prepares.isTable prepares.isBucket
  have issued := prepares.alters.issued (consistent.issued (isLive_of_table? isTable))
  apply (ends_expandItems prepares.isBucket 2 room).attach.bind
  rintro ⟨grown, expanded⟩ ⟨expands, rfl⟩
  have opening := Rewrites.setItems proper.toConsistent prepares.isBucket
    (before ++ List.replicate 2 .null ++ after)
  have gap : (heap'.setChildren bucket (before ++ List.replicate 2 .null ++ after)).items? bucket =
      some (before ++ .null :: .null :: after) := by
    rw [opening.items? prepares.isBucket, List.append_assoc]
    rfl
  apply (ends_setItem_at bound opening.consistent gap key).attach.bind
  rintro ⟨old, keyed⟩ ⟨stores, -, storing⟩
  have named := storing.items? ((Rewrites.own opening.consistent gap key).items? gap)
  have leads : Leads True 0 heap' keyed := (Leads.expandItems expands).trans (.setItem stores)
  have keying : Alters {bucket} heap' keyed := (Alters.of_rewrites opening).trans
    ((Alters.of_rewrites storing).afterMaking (.own opening.consistent key)) fun _ => id
  have isTable' := (keying.table? issued different).trans prepares.isTable
  have within : before.length + 1 + 1 ≤ bound := by
    rw [List.length_append] at room
    omega
  apply ((ends_countPair_storesAt (leads.proper proper) isTable' named value _).widen within).mono
  rintro ⟨answer, last⟩ ⟨stored, counted⟩
  have writing : Alters {table, bucket} heap keyed :=
    (prepares.alters.mono fun _ => .inl).trans keying fun _ => .inr
  refine ⟨bucketFor?_of_set counted, sought', stored.after (writing.mono ?_) fun _ => .inl⟩
  rintro cell isOld (isTableCell | rfl)
  · exact .inl isTableCell
  · exact .inr (prepares.bucketFor.bucketFor?_eq isTable isOld)

/-- Storing under a key copies the value as it is if the key is there.  For a new key the value is
copied after the table and the bucket were written. -/
theorem ends_setKey_storesAt (proper : heap.Proper True)
    (isTable : heap.table? table = some content) (key value : Value) :
    EndsWithin (heap.pairRoom table (heap.text key)) (heap.setKey table key value)
      fun result => ∃ bucket place,
      result.2.bucketFor? table (heap.text key) = some bucket ∧
        (heap.seekKey (heap.searched table (heap.text key)) (heap.text key) = .found place ∧
            heap.StoresAt result.2 ∅ bucket (place + 1) value ∨
          heap.seekKey (heap.searched table (heap.text key)) (heap.text key) = .missing place ∧
            heap.StoresAt result.2 (heap.pairCells table (heap.text key)) bucket (place + 1)
              value) := by
  have consistent := proper.toConsistent
  simp only [setKey, isTable]
  apply (ends_allocatedBuckets (slots_le_pairRoom isTable (heap.text key))).attach.bind
  rintro _ ⟨allocated, rfl⟩
  have allocating : Leads True 0 heap
      (heap.setTable table { content with buckets := heap.bucketsOf content }) :=
    .allocateBuckets isTable allocated
  have preparing := allocating.trans (.bucketArray (allocating.proper proper)
    (table?_setTable isTable) (Text.bucketOf (heap.text key) (heap.bucketsOf content).length))
  obtain ⟨items, prepares⟩ := exists_prepares consistent isTable
    (Text.bucketOf (heap.text key) (heap.bucketsOf content).length)
  revert prepares preparing
  generalize (heap.setTable table { content with buckets := heap.bucketsOf content }).bucketArray
    table { content with buckets := heap.bucketsOf content }
      (Text.bucketOf (heap.text key) (heap.bucketsOf content).length) = prepared
  obtain ⟨bucket, ready⟩ := prepared
  intro preparing prepares
  simp only [prepares.isBucket]
  have searched := prepares.bucketFor.searched_eq isTable
  have room : items.length + 2 ≤ heap.pairRoom table (heap.text key) :=
    searched ▸ le_max_right _ _
  rw [searched]
  cases sought : ready.seekKey items (heap.text key) with
  | found index =>
      apply (ends_replacePair_storesAt proper prepares sought value room).mono
      rintro ⟨old, last⟩ ⟨place, found, stored⟩
      exact ⟨bucket, index, place, .inl ⟨found, stored⟩⟩
  | missing index =>
      apply (ends_addPair_storesAt consistent isTable (preparing.proper proper) prepares sought key
        value room).mono
      rintro ⟨old, last⟩ ⟨place, missing, stored⟩
      exact ⟨bucket, index, place, .inr ⟨missing, stored⟩⟩

/-! ## The text that is stored -/

/-- What is stored of a scratch value is written as the value was before the operation, unless a
handle below it was foretold.  The operation ends if there is room for the list that it makes. -/
structure StoresText (heap : Heap σ) (element : Value) : Prop where
  set : ∀ {sequence items offset index}, heap.items? sequence = some items →
    position? items.length offset = some index →
      EndsWithin (index + 1) (heap.setItem sequence element offset) fun result =>
        heap.Settled result.2 element →
          result.2.HoldsText sequence index (heap.text element)
  insert : ∀ {sequence items offset index}, heap.items? sequence = some items →
    position? items.length offset = some index →
      EndsWithin (max items.length index + 1) (heap.insertItem sequence element offset)
        fun result =>
          heap.Settled result.2 element →
            result.2.HoldsText sequence index (heap.text element)
  push : ∀ {sequence items}, heap.items? sequence = some items →
    EndsWithin (items.length + 1) (heap.pushItem sequence element) fun result =>
      heap.Settled result.2 element →
        result.2.HoldsText sequence items.length (heap.text element)
  /-- A splice has written the sequence by then, so this must not be below the value. -/
  splice : ∀ {sequence items offset index}, heap.items? sequence = some items →
    position? items.length offset = some index → ∀ count inserted place,
      inserted[place]? = some element → ¬heap.Below element sequence →
        EndsWithin
          (max (items.take index ++ items.drop (index + count)).length index + inserted.length)
          (heap.spliceItems sequence offset count inserted) fun result =>
          heap.Settled result.2 element →
            result.2.HoldsText sequence (index + place) (heap.text element)
  /-- For a new key the table and its bucket are written by then, so neither must be below the
  value. -/
  pair : ∀ {table content}, heap.table? table = some content → ∀ key,
    heap.hasKey table key = true ∨
        (∀ cell ∈ heap.pairCells table (heap.text key), ¬heap.Below element cell) →
      EndsWithin (heap.pairRoom table (heap.text key)) (heap.setKey table key element) fun result =>
        heap.Settled result.2 element → ∃ bucket place,
          result.2.bucketFor? table (heap.text key) = some bucket ∧
            (heap.seekKey (heap.searched table (heap.text key)) (heap.text key) = .found place ∨
              heap.seekKey (heap.searched table (heap.text key)) (heap.text key) =
                .missing place) ∧
            result.2.HoldsText bucket (place + 1) (heap.text element)

/-- Whatever is stored and wherever, a scratch value is stored as it was when the operation began,
also into a container that is reached from it: in the place of an element, before one, at the end,
and under a key that is there.  A splice, and a pair under a new key, must not be reached. -/
theorem Runs.stored_copies_keep_text {config : Config} (runs : Runs True (.new config) heap)
    (scratch : element.isScratch = true) : heap.StoresText element := by
  have proper := runs.proper_new
  have consistent := proper.toConsistent
  have nothing : ∀ cell ∈ (∅ : Set Value), ¬heap.Below element cell := fun _ => False.elim
  constructor
  case set =>
    intro sequence items offset index found position
    apply (ends_setItem_storesAt proper found element position).mono
    rintro result ⟨stored, -⟩
    exact stored.holdsText consistent scratch nothing
  case insert =>
    intro sequence items offset index found position
    apply (ends_insertItem_storesAt proper found element position).mono
    intro result stored
    exact stored.holdsText consistent scratch nothing
  case push =>
    intro sequence items found
    apply (ends_pushItem_storesAt proper found element).mono
    intro result stored
    exact stored.holdsText consistent scratch nothing
  case splice =>
    intro sequence items offset index found position count inserted place isElement apart
    apply (ends_spliceItems_storesAt proper found position count inserted).mono
    intro result stored
    apply (stored place element isElement).holdsText consistent scratch
    rintro cell rfl
    exact apart
  case pair =>
    intro table content isTable key condition
    apply (ends_setKey_storesAt proper isTable key element).mono
    rintro result ⟨bucket, place, isBucket, ⟨sought, stored⟩ | ⟨sought, stored⟩⟩ settled
    · exact ⟨bucket, place, isBucket, .inl sought,
        stored.holdsText consistent scratch nothing settled⟩
    · have apart := condition.resolve_left fun has => by
        obtain ⟨index, present⟩ := (hasKey_iff table key).mp has
        rw [sought] at present
        contradiction
      exact ⟨bucket, place, isBucket, .inr sought,
        stored.holdsText consistent scratch apart settled⟩

/-- Where no handle that names nothing is stored, none below a value that lives was foretold. -/
theorem settled_of_isLive (consistent : heap.Consistent)
    (stored : ∀ holder ∈ heap.handles, ∀ child ∈ heap.children holder, heap.isLive child = true)
    (live : heap.isLive value = true) (later : Heap σ) : heap.Settled later value := by
  have allLive : ∀ {other}, heap.Below value other → heap.isLive other = true := by
    intro other below
    induction below with
    | refl => exact live
    | tail _ member inductionHypothesis =>
        exact stored _ (mem_handles_iff.mpr inductionHypothesis) _ member
  exact fun other below => .inl (consistent.issued (allLive below))

/-- A hash with one pair, an array with one number, and scratch arrays that hold them. -/
def reachingScript : List (Request .bare) :=
  [.hash, .string "a", .int 1, .setKey (.cell ⟨0, 0⟩) (.cell ⟨1, 0⟩) (.cell ⟨2, 0⟩),
    .arrayOf [.cell ⟨2, 0⟩], .string "k", .scratchArray 1, .scratchArray 1,
    .pushItem (.scratch ⟨0, 0⟩) (.cell ⟨0, 0⟩), .pushItem (.scratch ⟨1, 1⟩) (.cell ⟨4, 0⟩)]

theorem isSome_reaching :
    ((new { hashBuckets := 1 }).performAll? reachingScript).isSome = true := by
  decide +kernel

/-- The heap after `reachingScript`. -/
def reaching : Heap .bare :=
  ((new { hashBuckets := 1 }).performAll? reachingScript).get isSome_reaching

theorem runs_reaching : Runs True (.new { hashBuckets := 1 }) reaching :=
  Runs.refl.performAll? (Option.some_get isSome_reaching).symm

/-- A scratch array is stored in the array that it holds, which goes into the copy as it was. -/
theorem reached_array_is_stored_as_it_was :
    Runs True (.new { hashBuckets := 1 }) reaching ∧ reaching.StoresText (.scratch ⟨1, 1⟩) ∧
      ∃ old heap', reaching.setItem (.cell ⟨4, 0⟩) (.scratch ⟨1, 1⟩) 0 = .ok (old, heap') ∧
        heap'.HoldsText (.cell ⟨4, 0⟩) 0 "[[1]]" := by
  have stores : reaching.StoresText (.scratch ⟨1, 1⟩) :=
    runs_reaching.stored_copies_keep_text rfl
  have found : reaching.items? (.cell ⟨4, 0⟩) = some [.cell ⟨2, 0⟩] := by decide +kernel
  have text : reaching.text (.scratch ⟨1, 1⟩) = "[[1]]" := by decide +kernel
  obtain ⟨result, done, holds⟩ :=
    (stores.set found (position?_ofNat _ 0)).exists_ok (by decide +kernel)
  have holdsText := holds (settled_of_isLive runs_reaching.proper_new.toConsistent
    (by decide +kernel) (by decide +kernel) result.2)
  rw [text] at holdsText
  exact ⟨runs_reaching, stores, result.1, result.2, done, holdsText⟩

/-- A scratch array that holds a hash is stored in it under a new key with the key and without a
value for it; and one that holds an array is spliced into it without the element that it
replaces. -/
theorem half_written_containers_are_copied :
    Runs True (.new { hashBuckets := 1 }) reaching ∧
      (reaching.isLive (.scratch ⟨0, 0⟩) = true ∧
        reaching.text (.scratch ⟨0, 0⟩) = "[\x7ba:1\x7d]" ∧
        ((reaching.setKey (.cell ⟨0, 0⟩) (.cell ⟨5, 0⟩) (.scratch ⟨0, 0⟩)).toOption.map
          fun result => result.2.text (result.2.getKey (.cell ⟨0, 0⟩) (.cell ⟨5, 0⟩))) =
            some "[\x7ba:1,k:\x7d]") ∧
      reaching.isLive (.scratch ⟨1, 1⟩) = true ∧
        reaching.text (.scratch ⟨1, 1⟩) = "[[1]]" ∧
        ((reaching.spliceItems (.cell ⟨4, 0⟩) 0 1 [.scratch ⟨1, 1⟩]).toOption.map
          fun result => result.2.text (result.2.getItem (.cell ⟨4, 0⟩) 0)) = some "[[]]" :=
  ⟨runs_reaching, by decide +kernel, by decide +kernel⟩

end CountedHeap.Heap
