import CountedHeap.Proofs.Guarded
import CountedHeap.Sequence.Search

/-!
Contract: searches and hashes, spelled by guarded steps.

Owns:
- bisection that looks at one element after another, and both searches of an array;
- the bucket of a text, finding, storing and erasing a pair, and a walk, by guarded steps;
- none of them missteps on any heap, except that erasing a pair does so from a table that counts
  none.
-/

namespace CountedHeap

theorem getElem?_pairUp {items : List Value} {index : Nat} {key value : Value}
    (keyFound : items[index * 2]? = some key) (valueFound : items[index * 2 + 1]? = some value) :
    (pairUp items)[index]? = some (key, value) := by
  induction items using pairUp.induct generalizing index with
  | case1 first second rest inductionHypothesis =>
      cases index with
      | zero =>
          obtain rfl := Option.some.inj keyFound
          obtain rfl := Option.some.inj valueFound
          rfl
      | succ index =>
          rw [Nat.succ_mul] at keyFound valueFound
          exact inductionHypothesis keyFound valueFound
  | case2 items notPair =>
      obtain rfl | ⟨item, rfl⟩ := eq_nil_or_singleton notPair <;> simp at valueFound

namespace Heap

variable {σ : Signature} {heap : Heap σ}

/-- Storing the absent value at a place that exists. -/
theorem setItem_null {sequence : Value} {items : List Value}
    (found : heap.items? sequence = some items) {index : Nat} (inside : index < items.length) :
    heap.setItem sequence .null index = .ok (heap.clearItem sequence index) := by
  rw [setItem, itemPosition?_of_items? found, position?_ofNat, clearItem, found,
    own_of_not_isScratch rfl]
  dsimp only
  rw [found]
  dsimp only
  rw [padTo_of_le inside]
  rfl

theorem table?_clearItem (heap : Heap σ) (sequence : Value) (index : Nat) (other : Value) :
    (heap.clearItem sequence index).2.table? other = heap.table? other := by
  unfold clearItem
  cases found : heap.items? sequence with
  | none => rfl
  | some items =>
      simp only [replaceItem]
      rw [table?, payload_release, payload_retain, ← table?,
        table?_setChildren found]

theorem table?_collapseItems (heap : Heap σ) (sequence : Value) (offset : Int) (count : Nat)
    (other : Value) :
    (heap.collapseItems sequence offset count).2.table? other = heap.table? other := by
  unfold collapseItems
  cases found : heap.items? sequence with
  | none => rfl
  | some items =>
      dsimp only
      cases position? items.length offset with
      | none => rfl
      | some index =>
          dsimp only
          rw [table?, payload_releaseAll, ← table?, table?_setChildren found]

end Heap

namespace Guarded

/-! ## Records -/

section Records

variable {m : Type → Type} [Monad m] {α : Type}

/-- Bisection between two records. -/
def bisect (items : List α) (step : Nat) (probe : α → Ordering) (low high : Nat) :
    Guarded m Nat :=
  if low < high then do
    let _ ← minus high low
    let middle := low + (high - low) / 2
    let leading ← element items (middle * step)
    if probe leading == .lt then bisect items step probe (middle + 1) high
    else bisect items step probe low middle
  else pure low
termination_by high - low
decreasing_by all_goals omega

/-- Find the first record whose leading element matches. -/
def seek (items : List α) (step : Nat) (probe : α → Ordering) : Guarded m Seek := do
  let step := max step 1
  let count := items.length / step
  let record ← bisect items step probe 0 count
  if record < count then
    let leading ← element items (record * step)
    return if probe leading == .eq then .found (record * step) else .missing (record * step)
  else
    return .missing (record * step)

/-- The first of some indexes at which an element is accepted. -/
def findIndex (items : List α) (accepts : α → Bool) : List Nat → Guarded m (Option Nat)
  | [] => return none
  | index :: rest => do
      let item ← element items index
      if accepts item then return some index else findIndex items accepts rest

variable {items : List α} {step : Nat} {probe : α → Ordering}

/-- The leading element of a whole record is there. -/
theorem lt_length_of_lt_div {record : Nat} (positive : 0 < step)
    (whole : record < items.length / step) : record * step < items.length :=
  calc record * step < items.length / step * step := Nat.mul_lt_mul_of_pos_right whole positive
    _ ≤ items.length := Nat.div_mul_le_self _ _

theorem leads_eq {record : Nat} {leading : α} (present : items[record * step]? = some leading)
    (expected : Ordering) :
    Records.leads items step probe expected record = (probe leading == expected) := by
  rw [Records.leads, present]
  rfl

/-- One step of a bisection asks about the record in the middle, which is whole. -/
theorem bisect_of_lt [LawfulMonad m] (positive : 0 < step) {low high : Nat} (less : low < high)
    (whole : high ≤ items.length / step) :
    (bisect items step probe low high : Guarded m Nat) =
      if Records.leads items step probe .lt (low + (high - low) / 2) then
        bisect items step probe (low + (high - low) / 2 + 1) high
      else bisect items step probe low (low + (high - low) / 2) := by
  have present := List.getElem?_eq_getElem
    (lt_length_of_lt_div positive (by omega : low + (high - low) / 2 < items.length / step))
  rw [bisect, if_pos less, minus_eq (Nat.le_of_lt less), pure_bind]
  dsimp only
  rw [element_eq present, pure_bind, leads_eq present]

theorem bisect_eq [LawfulMonad m] (positive : 0 < step) {low high : Nat}
    (whole : high ≤ items.length / step) :
    bisect items step probe low high =
      (pure (Records.firstNotBelow (Records.leads items step probe .lt) low high) :
        Guarded m Nat) := by
  fun_induction Records.firstNotBelow (Records.leads items step probe .lt) low high with
  | case1 low high less between isBelow inductionHypothesis =>
      rw [bisect_of_lt positive less whole, if_pos isBelow]
      exact inductionHypothesis whole
  | case2 low high less between notBelow inductionHypothesis =>
      rw [bisect_of_lt positive less whole, if_neg notBelow]
      exact inductionHypothesis (by omega)
  | case3 low high notLess => rw [bisect, if_neg notLess]

theorem seek_eq [LawfulMonad m] (items : List α) (step : Nat) (probe : α → Ordering) :
    seek items step probe = (pure (Records.seek items step probe) : Guarded m Seek) := by
  have positive : 0 < max step 1 := by omega
  unfold seek Records.seek
  dsimp only
  rw [bisect_eq positive (Nat.le_refl _), pure_bind]
  generalize Records.firstNotBelow _ _ _ = record
  by_cases whole : record < items.length / max step 1
  · have present := List.getElem?_eq_getElem (lt_length_of_lt_div positive whole)
    rw [if_pos whole, element_eq present, pure_bind, leads_eq present, decide_eq_true whole,
      Bool.true_and]
  · rw [if_neg whole, decide_eq_false whole]
    rfl

theorem findIndex_eq [LawfulMonad m] (accepts : α → Bool) {indexes : List Nat}
    (inside : ∀ index ∈ indexes, index < items.length) :
    findIndex items accepts indexes =
      (pure (indexes.find? fun index => items[index]?.any accepts) : Guarded m (Option Nat)) := by
  induction indexes with
  | nil => rfl
  | cons index rest inductionHypothesis =>
      obtain ⟨here, others⟩ := List.forall_mem_cons.mp inside
      have present := List.getElem?_eq_getElem here
      rw [findIndex, element_eq present, pure_bind, List.find?_cons, present, Option.any_some]
      cases accepts items[index] with
      | true => rfl
      | false => exact inductionHypothesis others

end Records

section Heaps

variable {m : Type → Type} [Monad m] {σ : Signature}

/-- The linear search of an array. -/
def linearSeek (heap : Heap σ) (sequence key : Value) (step : Nat) : Guarded m (Option Nat) :=
  match heap.items? sequence with
  | none => return none
  | some items =>
      let step := max step 1
      findIndex items (fun element => heap.compare element key == .eq)
        ((List.range ((items.length + step - 1) / step)).map (· * step))

/-- The binary search of a sorted array. -/
def binarySeek (heap : Heap σ) (sequence key : Value) (step : Nat) : Guarded m Seek :=
  match heap.items? sequence with
  | none => return .missing 0
  | some items => seek items step fun element => heap.compare element key

theorem linearSeek_eq [LawfulMonad m] (heap : Heap σ) (sequence key : Value) (step : Nat) :
    linearSeek heap sequence key step =
      (pure (heap.linearSeek sequence key step) : Guarded m (Option Nat)) := by
  unfold linearSeek Heap.linearSeek
  cases heap.items? sequence with
  | none => rfl
  | some items =>
      refine findIndex_eq _ fun index member => ?_
      obtain ⟨record, counted, rfl⟩ := List.mem_map.mp member
      have positive : 0 < max step 1 := by omega
      have covered : (record + 1) * max step 1 ≤ items.length + max step 1 - 1 :=
        (Nat.le_div_iff_mul_le positive).mp (List.mem_range.mp counted)
      rw [Nat.add_mul, Nat.one_mul] at covered
      omega

theorem binarySeek_eq [LawfulMonad m] (heap : Heap σ) (sequence key : Value) (step : Nat) :
    binarySeek heap sequence key step =
      (pure (heap.binarySeek sequence key step) : Guarded m Seek) := by
  unfold binarySeek Heap.binarySeek
  cases heap.items? sequence with
  | none => rfl
  | some items => exact seek_eq _ _ _

/-! ## Hashes -/

/-- The bucket of a text in a table of `buckets` buckets. -/
def slotOf (text : String) (buckets : Nat) : Guarded m Nat :=
  modulo (Text.keyHash text).toNat buckets

/-- The bucket array and the position in it of the pair whose key has the given text. -/
def locate (heap : Heap σ) (table : Value) (text : String) : Guarded m (Option (Value × Nat)) :=
  match heap.table? table with
  | none => return none
  | some content =>
      if content.buckets.isEmpty then return none
      else do
        let slot ← slotOf text content.buckets.length
        let bucket ← element content.buckets slot
        match heap.items? bucket with
        | none => return none
        | some items =>
            match ← seek items 2 fun key => Ord.compare (heap.text key) text with
            | .found index => return some (bucket, index)
            | .missing _ => return none

/-- The array of a bucket, which is made now if there is none yet. -/
def bucketArray (heap : Heap σ) (table : Value) (content : HashTable) (slot : Nat) :
    Guarded m (Value × Heap σ) := do
  let bucket ← element content.buckets slot
  match heap.items? bucket with
  | some _ => return (bucket, heap)
  | none =>
      let (bucket, heap) := heap.create (.array [])
      let buckets ← store content.buckets slot bucket
      return (bucket, (heap.retain bucket).setTable table { content with buckets })

/-- Store a value under a key. -/
def setKey (heap : Heap σ) (table key value : Value) :
    Guarded (Except Exhausted) (Value × Heap σ) :=
  let text := heap.text key
  match heap.table? table with
  | none => return (.null, heap)
  | some content => do
      let buckets ← liftM (heap.allocatedBuckets content)
      let content := { content with buckets }
      let heap := heap.setTable table content
      let slot ← slotOf text buckets.length
      let (bucket, heap) ← bucketArray heap table content slot
      match heap.items? bucket with
      | none => return (.null, heap)
      | some items =>
          match ← seek items 2 fun key => Ord.compare (heap.text key) text with
          | .found index => setItem heap bucket value (index + 1 : Nat)
          | .missing index => do
              let (_, heap) ← expandItems heap bucket index 2
              let (_, heap) ← setItem heap bucket key index
              setItem (heap.countPair table) bucket value (index + 1 : Nat)

/-- Remove the pair of a key. -/
def eraseKey (heap : Heap σ) (table key : Value) : Guarded (Except Exhausted) (Value × Heap σ) := do
  match ← locate heap table (heap.text key) with
  | none => return (.null, heap)
  | some (bucket, index) =>
      let (_, heap) ← setItem heap bucket .null index
      let (removed, heap) ← setItem heap bucket .null (index + 1 : Nat)
      let (_, heap) ← collapseItems heap bucket index 2
      match heap.table? table with
      | none => return (removed, heap)
      | some content =>
          let pairs ← minus content.pairs 1
          return (removed, heap.setTable table { content with pairs })

/-- The pair at a place in a walk through some buckets, and the place after it. -/
def nextPairIn (heap : Heap σ) (buckets : List Value) (cursor : TableCursor) :
    Guarded m (Option (Value × Value) × TableCursor) :=
  if cursor.bucket < buckets.length then do
    let bucket ← element buckets cursor.bucket
    match heap.items? bucket with
    | some items =>
        if cursor.pair * 2 + 1 < items.length then do
          let key ← element items (cursor.pair * 2)
          let value ← element items (cursor.pair * 2 + 1)
          return (some (key, value), { cursor with pair := cursor.pair + 1 })
        else nextPairIn heap buckets { bucket := cursor.bucket + 1, pair := 0 }
    | none => nextPairIn heap buckets { bucket := cursor.bucket + 1, pair := 0 }
  else return (none, cursor)
termination_by buckets.length - cursor.bucket

/-- The pair at a place in a walk, and the place after it. -/
def nextPair (heap : Heap σ) (table : Value) (cursor : TableCursor) :
    Guarded m (Option (Value × Value) × TableCursor) :=
  match heap.table? table with
  | some content => nextPairIn heap content.buckets cursor
  | none => return (none, cursor)

/-! ### What they come to -/

theorem slotOf_eq (text : String) {buckets : Nat} (nonempty : 0 < buckets) :
    slotOf text buckets = (pure (Text.bucketOf text buckets) : Guarded m Nat) :=
  modulo_eq nonempty _

theorem locate_eq [LawfulMonad m] (heap : Heap σ) (table : Value) (text : String) :
    locate heap table text =
      (pure (heap.locate? table text) : Guarded m (Option (Value × Nat))) := by
  unfold locate Heap.locate?
  cases heap.table? table with
  | none => rfl
  | some content =>
      dsimp only
      split
      next empty =>
        rw [List.isEmpty_iff.mp empty]
        rfl
      next nonempty =>
        have positive : 0 < content.buckets.length :=
          List.length_pos_iff.mpr fun empty => nonempty (List.isEmpty_iff.mpr empty)
        have inside := Text.bucketOf_lt text positive
        have present := List.getElem?_eq_getElem inside
        rw [slotOf_eq text positive, pure_bind, element_eq present, pure_bind, present]
        dsimp only
        cases heap.items? content.buckets[Text.bucketOf text content.buckets.length] with
        | none => rfl
        | some items =>
            dsimp only
            rw [seek_eq, pure_bind, Heap.seekKey]
            cases Records.seek items 2 fun key => Ord.compare (heap.text key) text <;> rfl

theorem bucketArray_eq [LawfulMonad m] (heap : Heap σ) (table : Value) {content : HashTable}
    {slot : Nat} (inside : slot < content.buckets.length) :
    bucketArray heap table content slot =
      (pure (heap.bucketArray table content slot) : Guarded m (Value × Heap σ)) := by
  have present := List.getElem?_eq_getElem inside
  unfold bucketArray Heap.bucketArray
  rw [element_eq present, pure_bind, present, Option.getD_some]
  dsimp only
  cases heap.items? content.buckets[slot] with
  | some items => rfl
  | none =>
      dsimp only
      rw [store_eq inside, pure_bind]

theorem setKey_eq (heap : Heap σ) (table key value : Value) :
    setKey heap table key value = liftM (heap.setKey table key value) := by
  unfold setKey Heap.setKey
  cases heap.table? table with
  | none => rfl
  | some content =>
      refine liftM_bind_eq fun buckets allocated => ?_
      have positive : 0 < buckets.length := by
        apply List.length_pos_iff.mpr
        rcases Heap.eq_replicate_of_allocatedBuckets allocated with ⟨nonempty, rfl⟩ | ⟨-, rfl⟩
        · exact nonempty
        · simp
      dsimp only
      rw [slotOf_eq _ positive, pure_bind, bucketArray_eq _ _ (Text.bucketOf_lt _ positive),
        pure_bind]
      generalize Heap.bucketArray _ _ _ _ = ready
      obtain ⟨bucket, heap'⟩ := ready
      dsimp only
      cases heap'.items? bucket with
      | none => rfl
      | some items =>
          dsimp only
          rw [seek_eq, pure_bind, Heap.seekKey]
          cases Records.seek items 2 fun other =>
              Ord.compare (heap'.text other) (heap.text key) with
          | found index => exact setItem_eq _ _ _ _
          | missing index =>
              dsimp only
              rw [expandItems_eq]
              refine liftM_bind_eq fun opened _ => ?_
              rw [setItem_eq]
              exact liftM_bind_eq fun keyed _ => setItem_eq _ _ _ _

/-- Erasing a pair that is there, up to the count of the table. -/
theorem eraseKey_of_locate {heap : Heap σ} {table key bucket : Value} {index : Nat}
    (located : heap.locate? table (heap.text key) = some (bucket, index)) :
    ∃ content, heap.table? table = some content ∧
      eraseKey heap table key = (do
        let _ ← minus content.pairs 1
        return heap.eraseKey table key) := by
  obtain ⟨content, items, found, -, itemsFound, inside⟩ := Heap.locate?_eq_some located
  refine ⟨content, found, ?_⟩
  have cleared := Heap.items?_clearItem itemsFound index
  have insideCleared : index + 1 < (items.set index .null).length := by
    rwa [List.length_set]
  have kept : (((heap.clearItem bucket index).2.clearItem bucket (index + 1)).2.collapseItems
      bucket index 2).2.table? table = some content := by
    rw [Heap.table?_collapseItems, Heap.table?_clearItem, Heap.table?_clearItem, found]
  unfold eraseKey Heap.eraseKey
  rw [locate_eq, pure_bind, located]
  dsimp only
  rw [setItem_eq, Heap.setItem_null itemsFound (by omega), liftM_ok, pure_bind]
  rw [setItem_eq, Heap.setItem_null cleared insideCleared, liftM_ok, pure_bind]
  rw [collapseItems_eq, pure_bind, kept, Heap.uncountPair, kept]
  dsimp only
  by_cases counted : 1 ≤ content.pairs
  · rw [minus_eq counted, pure_bind, pure_bind]
  · have stops (next : Nat → Guarded (Except Exhausted) (Value × Heap σ)) :
        throw .difference >>= next = throw .difference := rfl
    rw [minus, if_neg counted, stops, stops]

/-- Erasing a pair comes to what it should, if the table counts the pair. -/
theorem eraseKey_eq {heap : Heap σ} {table key : Value} {result : Value × Heap σ}
    (done : heap.removeKey table key = .ok result) : eraseKey heap table key = pure result := by
  unfold Heap.removeKey at done
  split at done
  next => contradiction
  next counted =>
    obtain rfl := Except.ok.inj done
    cases located : heap.locate? table (heap.text key) with
    | none =>
        unfold eraseKey Heap.eraseKey
        rw [locate_eq, pure_bind, located]
    | some place =>
        obtain ⟨content, found, erasing⟩ := eraseKey_of_locate located
        rw [Heap.hasKey, located, Heap.pairCount, found] at counted
        have positive : 1 ≤ content.pairs := Nat.pos_of_ne_zero (by simpa using counted)
        rw [erasing, minus_eq positive, pure_bind]

/-- Otherwise it missteps. -/
theorem eraseKey_missteps {heap : Heap σ} {table key : Value} {reason : Exhausted}
    (failed : heap.removeKey table key = .error reason) :
    eraseKey heap table key = throw .difference := by
  unfold Heap.removeKey at failed
  split at failed
  next both =>
    obtain ⟨has, uncounted⟩ := Bool.and_eq_true_iff.mp both
    obtain ⟨place, located⟩ := Option.isSome_iff_exists.mp has
    obtain ⟨content, found, erasing⟩ := eraseKey_of_locate located
    rw [Heap.pairCount, found] at uncounted
    have nothing : content.pairs = 0 := by simpa using uncounted
    rw [erasing, nothing]
    rfl
  next => contradiction

theorem nextPairIn_eq [LawfulMonad m] (heap : Heap σ) (buckets : List Value)
    (cursor : TableCursor) :
    nextPairIn heap buckets cursor =
      (pure (heap.nextPairIn (buckets.drop cursor.bucket) cursor) :
        Guarded m (Option (Value × Value) × TableCursor)) := by
  induction remaining : buckets.length - cursor.bucket generalizing cursor with
  | zero =>
      have past : buckets.length ≤ cursor.bucket := by omega
      rw [nextPairIn, if_neg (Nat.not_lt_of_le past), List.drop_eq_nil_of_le past]
      rfl
  | succ remaining inductionHypothesis =>
      have inside : cursor.bucket < buckets.length := by omega
      have onward := inductionHypothesis { bucket := cursor.bucket + 1, pair := 0 }
        (by dsimp only; omega)
      rw [nextPairIn, if_pos inside, element_eq (List.getElem?_eq_getElem inside), pure_bind,
        List.drop_eq_getElem_cons inside, Heap.nextPairIn, Heap.bucketPairs]
      cases heap.items? buckets[cursor.bucket] with
      | none => exact onward
      | some items =>
          dsimp only
          by_cases whole : cursor.pair * 2 + 1 < items.length
          · have key := List.getElem?_eq_getElem (Nat.lt_of_succ_lt whole)
            have value := List.getElem?_eq_getElem whole
            rw [if_pos whole, element_eq key, pure_bind, element_eq value, pure_bind,
              getElem?_pairUp key value]
          · rw [if_neg whole, List.getElem?_eq_none (by rw [length_pairUp]; omega)]
            exact onward

theorem nextPair_eq [LawfulMonad m] (heap : Heap σ) (table : Value) (cursor : TableCursor) :
    nextPair heap table cursor =
      (pure (heap.nextPair table cursor) : Guarded m (Option (Value × Value) × TableCursor)) := by
  unfold nextPair Heap.nextPair
  cases heap.table? table with
  | none => rfl
  | some content => exact nextPairIn_eq _ _ _

end Heaps

end Guarded

end CountedHeap
