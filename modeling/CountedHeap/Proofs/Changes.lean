import CountedHeap.Proofs.Requests
import CountedHeap.Proofs.Traces

/-!
Contract: every operation is a trace.

The operations may be given any handles, issued or not.  What they store is storable, because
they own it first.

Owns: chains of changes that keep the place of the next sweep within the slab, one lemma for each
operation, and the same for requests and sweeps.

Does not own: what the operations answer, and which handles they make.
-/

namespace CountedHeap

namespace Heap

variable {σ : Signature} {loose : Prop} {floor : Nat} {heap heap' heap'' : Heap σ}

/-- A change that keeps the place of the next sweep within the slab. -/
def Proceeds (loose : Prop) (floor : Nat) (heap heap' : Heap σ) : Prop :=
  (∃ made, Change loose floor heap made heap') ∧
    (heap.cursor ≤ heap.slots.size → heap'.cursor ≤ heap'.slots.size)

/-- A chain of changes leads from one heap to another. -/
def Leads (loose : Prop) (floor : Nat) : Heap σ → Heap σ → Prop :=
  Relation.ReflTransGen (Proceeds loose floor)

theorem Leads.refl (heap : Heap σ) : Leads loose floor heap heap :=
  Relation.ReflTransGen.refl

theorem Leads.trans (first : Leads loose floor heap heap')
    (second : Leads loose floor heap' heap'') : Leads loose floor heap heap'' :=
  Relation.ReflTransGen.trans first second

theorem cursor_modifyCell (value : Value) (change : Cell σ → Cell σ) :
    (heap.modifyCell value change).cursor = heap.cursor := by
  cases value <;> rfl

theorem cursor_create (payload : Payload σ) : (heap.create payload).2.cursor = heap.cursor := by
  unfold Heap.create
  split <;> rfl

/-- No change makes the slab smaller. -/
theorem Change.size_le {made : List Value} (change : Change loose floor heap made heap') :
    heap.slots.size ≤ heap'.slots.size := by
  cases change with
  | create =>
      unfold Heap.create
      split <;> simp
  | retain | release | setPayload => exact Nat.le_of_eq (size_modifyCell _ _).symm
  | vacate => simp [Heap.vacate]
  | createScratch | dropScratch | tune => exact Nat.le_refl _

/-- A change that does not move the place of the next sweep. -/
theorem Leads.of_change {made : List Value} (change : Change loose floor heap made heap')
    (unmoved : heap'.cursor = heap.cursor) : Leads loose floor heap heap' :=
  .single ⟨⟨made, change⟩, fun inside => unmoved ▸ inside.trans change.size_le⟩

/-- The handles that are made on the way. -/
theorem Leads.trace (leads : Leads loose floor heap heap') :
    ∃ made, Trace loose floor heap made heap' := by
  induction leads with
  | refl => exact ⟨[], .refl⟩
  | tail _ proceeds inductionHypothesis =>
      obtain ⟨made, before⟩ := inductionHypothesis
      obtain ⟨⟨made', change⟩, -⟩ := proceeds
      exact ⟨made ++ made', .step before change⟩

/-- An operation that misses changes nothing. -/
theorem Leads.of_miss {ε α : Type} {answer answer' : α}
    (done : (.ok (answer, heap) : Except ε (α × Heap σ)) = .ok (answer', heap')) :
    Leads loose floor heap heap' := by
  obtain ⟨-, rfl⟩ := Prod.mk.inj (Except.ok.inj done)
  exact .refl _

theorem Leads.proper (leads : Leads loose floor heap heap') (proper : heap.Proper loose) :
    heap'.Proper loose := by
  obtain ⟨made, trace⟩ := leads.trace
  exact trace.proper proper

theorem Leads.floor_le (leads : Leads loose floor heap heap')
    (inside : floor ≤ heap.scratch.size) : floor ≤ heap'.scratch.size := by
  obtain ⟨made, trace⟩ := leads.trace
  exact (trace.serials inside).1

/-! ## Counting and writing -/

theorem Leads.retain (heap : Heap σ) (value : Value) :
    Leads loose floor heap (heap.retain value) :=
  .of_change (.retain value) (cursor_modifyCell value _)

theorem Leads.release (heap : Heap σ) (value : Value) :
    Leads loose floor heap (heap.release value) :=
  .of_change (.release value) (cursor_modifyCell value _)

theorem Leads.releaseAll (heap : Heap σ) (values : List Value) :
    Leads loose floor heap (heap.releaseAll values) := by
  induction values generalizing heap with
  | nil => exact .refl heap
  | cons value rest inductionHypothesis =>
      exact (Leads.release heap value).trans (inductionHypothesis (heap.release value))

/-- What is no container has no children to replace. -/
theorem Leads.setChildren {target : Value} {values : List Value}
    (storable : ∀ value ∈ values, value ∈ heap.children target ∨ Storable loose value) :
    Leads loose floor heap (heap.setChildren target values) := by
  by_cases multi : (heap.kind target).isMulti = true
  · rw [setChildren_eq_setPayload]
    refine .of_change (.setPayload (Payload.kind_withChildren values _) ?_ ?_)
      (cursor_modifyCell target _)
    · rwa [Payload.kind_withChildren]
    · rwa [Payload.children_withChildren_of_isMulti multi]
  · have same : heap.setChildren target values = heap := by
      apply modifyCell_of_same
      intro cell found
      rw [kind, payload_of_cell? found] at multi
      cases cell with
      | mk refs payload =>
          cases payload <;> first | rfl | exact absurd rfl multi
    rw [same]
    exact .refl heap

theorem Leads.setTable {table : Value} {content : HashTable} (isHash : heap.kind table = .hash)
    (storable : ∀ bucket ∈ content.buckets,
      bucket ∈ heap.children table ∨ Storable loose bucket) :
    Leads loose floor heap (heap.setTable table content) :=
  .of_change (.setPayload isHash.symm rfl storable) (cursor_modifyCell table _)

theorem Leads.tune (heap : Heap σ) (config : Config) (allocated : Nat) :
    Leads loose floor heap { heap with config, allocated } :=
  .of_change (.tune config heap.cursor allocated) rfl

/-- The next sweep begins at a place within the slab. -/
theorem Leads.advance {cursor : Nat} (inside : cursor ≤ heap.slots.size) :
    Leads loose floor heap { heap with cursor } :=
  .single ⟨⟨[], .tune heap.config cursor heap.allocated⟩, fun _ => inside⟩

/-! ## Making cells -/

theorem Leads.create {payload : Payload σ}
    (storable : ∀ child ∈ payload.children, Storable loose child) :
    Leads loose floor heap (heap.create payload).2 :=
  .of_change (.create storable) (cursor_create payload)

theorem Leads.createSingle {payload : Payload σ} (childless : payload.children = []) :
    Leads loose floor heap (heap.create payload).2 :=
  .create (by simp [childless])

theorem Leads.createScratch {payload : Payload σ} (childless : payload.children = [])
    (pooled : payload.isPlainData = true ∨ payload.kind = .array) :
    Leads loose floor heap (heap.createScratch payload).2 :=
  .of_change (.createScratch childless pooled) rfl

theorem Leads.array {capacity : Nat} {array : Value}
    (done : heap.array capacity = .ok (array, heap')) : Leads loose floor heap heap' := by
  obtain ⟨-, -, made⟩ := bind_eq_ok.mp done
  obtain ⟨-, rfl⟩ := Prod.mk.inj (Except.ok.inj made)
  exact .createSingle rfl

theorem Leads.scratchArray {capacity : Nat} {array : Value}
    (done : heap.scratchArray capacity = .ok (array, heap')) : Leads loose floor heap heap' := by
  obtain ⟨-, -, made⟩ := bind_eq_ok.mp done
  obtain ⟨-, rfl⟩ := Prod.mk.inj (Except.ok.inj made)
  exact .createScratch rfl (.inr rfl)

/-! ## Copying -/

/-- No copy is a scratch value. -/
def DurableCopies (copies : Copies) : Prop :=
  ∀ {key copy : Value}, (key, copy) ∈ copies → copy.isScratch = false

/-- Copying one value leads on, and what it answers can be stored. -/
structure Copying (loose : Prop) (floor : Nat) (heap : Heap σ)
    (result : Value × Copies × Heap σ) : Prop where
  leads : Leads loose floor heap result.2.2
  copies : DurableCopies result.2.1
  durable : result.1.isScratch = false

/-- The same for a list of values. -/
structure CopyingEach (loose : Prop) (floor : Nat) (heap : Heap σ)
    (result : List Value × Copies × Heap σ) : Prop where
  leads : Leads loose floor heap result.2.2
  copies : DurableCopies result.2.1
  durable : ∀ copy ∈ result.1, copy.isScratch = false

theorem Copying.cloneEach {clone : Copies → Value → Heap σ → Value × Copies × Heap σ}
    (clones : ∀ {copies : Copies} (value : Value) (heap : Heap σ), DurableCopies copies →
      Copying loose floor heap (clone copies value heap))
    {copies : Copies} (values : List Value) (heap : Heap σ) (durable : DurableCopies copies) :
    CopyingEach loose floor heap (cloneEach clone copies values heap) := by
  induction values generalizing copies heap with
  | nil => exact ⟨.refl heap, durable, by simp [Heap.cloneEach]⟩
  | cons value rest inductionHypothesis =>
      have first := clones value heap durable
      have others := inductionHypothesis ((clone copies value heap).2.2.retain
        (clone copies value heap).1) first.copies
      refine ⟨?_, others.copies, List.forall_mem_cons.mpr ⟨first.durable, others.durable⟩⟩
      exact (first.leads.trans (.retain _ _)).trans others.leads

theorem Copying.cloneWithin (depth : Nat) {copies : Copies} (value : Value) (heap : Heap σ)
    (durable : DurableCopies copies) :
    Copying loose floor heap (cloneWithin depth copies value heap) := by
  induction depth generalizing copies value heap with
  | zero => exact ⟨.refl heap, durable, rfl⟩
  | succ depth inductionHypothesis =>
      rw [Heap.cloneWithin]
      split
      next copy found =>
        obtain ⟨before, after, rfl, -⟩ := List.lookup_eq_some_iff.mp found
        have entered : (value, copy) ∈ before ++ (value, copy) :: after := by simp
        exact ⟨.refl heap, durable, durable entered⟩
      next =>
        split
        next => exact ⟨.refl heap, durable, rfl⟩
        next cell _ =>
          split
          next shell isShell =>
            have childless : shell.children = [] := by
              rw [← (Payload.shell?_eq_some_iff.mp isShell).2, children_shell]
            have entered : DurableCopies ((value, (heap.create shell).1) :: copies) := by
              intro key copy member
              rcases List.mem_cons.mp member with new | old
              · obtain ⟨-, rfl⟩ := Prod.mk.inj new
                exact isScratch_create shell
              · exact durable old
            have each := Copying.cloneEach inductionHypothesis cell.payload.children
              (heap.create shell).2 entered
            refine ⟨?_, each.copies, isScratch_create shell⟩
            apply ((Leads.createSingle childless).trans each.leads).trans
            exact .setChildren fun child member => .inr (storable_of_durable
              (each.durable child member))
          next =>
            split
            next =>
              split
              next isPlain =>
                refine ⟨.createSingle ?_, durable, isScratch_create _⟩
                cases form : cell.payload <;> simp_all [Payload.isPlainData, Payload.children]
              next => exact ⟨.refl heap, durable, rfl⟩
            next notScratch => exact ⟨.refl heap, durable, eq_false_of_ne_true notScratch⟩

theorem Copying.clone (value : Value) (heap : Heap σ) :
    Leads loose floor heap (heap.clone value).2 ∧ (heap.clone value).1.isScratch = false := by
  obtain ⟨depth, -, same⟩ := heap.exists_clone_eq value
  have copying : Copying loose floor heap (Heap.cloneWithin (depth + 1) [] value heap) :=
    .cloneWithin (depth + 1) value heap nofun
  rw [same]
  exact ⟨copying.leads, copying.durable⟩

theorem Leads.own (heap : Heap σ) (value : Value) :
    Leads loose floor heap (heap.own value).2 := by
  unfold Heap.own
  split
  next => exact (Copying.clone value heap).1
  next => exact .refl heap

theorem isScratch_own (heap : Heap σ) (value : Value) : (heap.own value).1.isScratch = false := by
  unfold Heap.own
  split
  next =>
    have copied : Leads True 0 heap (heap.clone value).2 ∧ (heap.clone value).1.isScratch = false :=
      Copying.clone value heap
    exact copied.2
  next durable => exact eq_false_of_ne_true durable

theorem Leads.ownAll (values : List Value) (heap : Heap σ) :
    Leads loose floor heap (Heap.ownAll values heap).2 := by
  induction values generalizing heap with
  | nil => exact .refl heap
  | cons value rest inductionHypothesis =>
      have others := inductionHypothesis ((heap.own value).2.retain (heap.own value).1)
      exact ((Leads.own heap value).trans (.retain _ _)).trans others

theorem isScratch_ownAll (values : List Value) (heap : Heap σ) :
    ∀ owned ∈ (ownAll values heap).1, owned.isScratch = false := by
  induction values generalizing heap with
  | nil => simp [ownAll]
  | cons value rest inductionHypothesis =>
      exact List.forall_mem_cons.mpr ⟨isScratch_own heap value, inductionHypothesis _⟩

theorem Leads.arrayOf (heap : Heap σ) (items : List Value) :
    Leads loose floor heap (heap.arrayOf items).2 :=
  (Leads.ownAll items heap).trans (.create fun child member =>
    storable_of_durable (isScratch_ownAll items heap child member))

theorem Leads.program (heap : Heap σ) (items : List Value) :
    Leads loose floor heap (heap.program items).2 :=
  (Leads.ownAll items heap).trans (.create fun child member =>
    storable_of_durable (isScratch_ownAll items heap child member))

theorem Leads.closure (heap : Heap σ) (name : σ.Closure) (auxiliary : Value) :
    Leads loose floor heap (heap.closure name auxiliary).2 := by
  have making : Leads loose floor heap (heap.create (.exec (.closure name))).2 :=
    .createSingle rfl
  exact making.trans (.program _ _)

/-! ## Sequences -/

theorem storable_null : Storable loose .null :=
  storable_of_durable rfl

/-- Every value of a padded list was an item or is absent. -/
theorem mem_padded {items : List Value} {count : Nat} {value : Value}
    (member : value ∈ items ++ List.replicate count .null) :
    value ∈ items ∨ Storable loose value := by
  rcases List.mem_append.mp member with old | absent
  · exact .inl old
  · rw [List.eq_of_mem_replicate absent]
    exact .inr storable_null

/-- The items of a sequence are replaced. -/
theorem Leads.setItems {sequence : Value} {items items' : List Value}
    (found : heap.items? sequence = some items)
    (storable : ∀ item ∈ items', item ∈ items ∨ Storable loose item) :
    Leads loose floor heap (heap.setChildren sequence items') := by
  apply Leads.setChildren
  rw [children_of_items? found]
  exact storable

theorem Leads.expandItems {sequence : Value} {offset : Int} {count : Nat} {answer : Bool}
    (done : heap.expandItems sequence offset count = .ok (answer, heap')) :
    Leads loose floor heap heap' := by
  unfold Heap.expandItems at done
  split at done
  next => exact .of_miss done
  next items found =>
    split at done
    next => exact .of_miss done
    next index _ =>
      obtain ⟨reached, padded, done⟩ := bind_eq_ok.mp done
      obtain ⟨grown, paddedAgain, done⟩ := bind_eq_ok.mp done
      obtain ⟨-, rfl⟩ := Prod.mk.inj (Except.ok.inj done)
      obtain ⟨-, rfl⟩ := padTo_eq_ok_iff.mp padded
      obtain ⟨-, rfl⟩ := padTo_eq_ok_iff.mp paddedAgain
      apply Leads.setItems found
      intro item member
      rw [List.append_assoc, ← List.replicate_add] at member
      apply mem_padded
      rcases List.mem_append.mp member with front | back
      · exact List.mem_of_mem_take front
      · exact List.mem_of_mem_drop ((rotateRight_perm _ _).subset back)

theorem Leads.collapseItems (heap : Heap σ) (sequence : Value) (offset : Int) (count : Nat) :
    Leads loose floor heap (heap.collapseItems sequence offset count).2 := by
  unfold Heap.collapseItems
  split
  next => exact .refl heap
  next items found =>
    split
    next => exact .refl heap
    next index _ =>
      apply Leads.trans (.setItems found ?_) (.releaseAll _ _)
      intro item member
      rcases List.mem_append.mp member with front | back
      · exact .inl (List.mem_of_mem_take front)
      · exact .inl (List.mem_of_mem_drop back)

/-- One item of a padded list is replaced by a storable one. -/
theorem Leads.replaceItem {sequence element : Value} {items : List Value} {count : Nat}
    (found : heap.items? sequence = some items) (index : Nat)
    (storable : Storable loose element) :
    Leads loose floor heap
      (heap.replaceItem sequence (items ++ List.replicate count .null) index element).2 := by
  apply ((Leads.setItems found ?_).trans (.retain _ _)).trans (.release _ _)
  intro item member
  rcases List.mem_or_eq_of_mem_set member with old | rfl
  · exact mem_padded old
  · exact .inr storable

theorem Leads.setItem {sequence element answer : Value} {offset : Int}
    (done : heap.setItem sequence element offset = .ok (answer, heap')) :
    Leads loose floor heap heap' := by
  unfold Heap.setItem at done
  split at done
  next => exact .of_miss done
  next index _ =>
    have durable := isScratch_own heap element
    apply Leads.trans (.own heap element)
    revert done durable
    generalize heap.own element = owned
    intro done durable
    simp only at done
    split at done
    next => exact .of_miss done
    next items found =>
      obtain ⟨reached, padded, done⟩ := bind_eq_ok.mp done
      obtain ⟨-, rfl⟩ := padTo_eq_ok_iff.mp padded
      have replacing : Leads loose floor owned.2 (owned.2.replaceItem sequence
          (items ++ List.replicate (index + 1 - items.length) .null) index owned.1).2 :=
        .replaceItem found index (storable_of_durable durable)
      rwa [Except.ok.inj done] at replacing

theorem Leads.insertItem {sequence element answer : Value} {offset : Int}
    (done : heap.insertItem sequence element offset = .ok (answer, heap')) :
    Leads loose floor heap heap' := by
  unfold Heap.insertItem at done
  split at done
  next => exact .of_miss done
  next index _ =>
    obtain ⟨⟨opened, heap₁⟩, expanded, done⟩ := bind_eq_ok.mp done
    obtain ⟨⟨previous, heap₂⟩, written, done⟩ := bind_eq_ok.mp done
    obtain ⟨-, rfl⟩ := Prod.mk.inj (Except.ok.inj done)
    exact ((Leads.own heap element).trans (.expandItems expanded)).trans (.setItem written)

theorem Leads.pushItem {sequence element answer : Value}
    (done : heap.pushItem sequence element = .ok (answer, heap')) :
    Leads loose floor heap heap' :=
  .insertItem done

theorem Leads.deleteItem (heap : Heap σ) (sequence : Value) (offset : Int) :
    Leads loose floor heap (heap.deleteItem sequence offset).2 := by
  unfold Heap.deleteItem
  split
  next => exact .refl heap
  next index _ => exact .collapseItems heap sequence index 1

theorem Leads.evictItems (sequence : Value) (count : Nat) (evicted : Value) (heap : Heap σ) :
    Leads loose floor heap (Heap.evictItems sequence count evicted heap).2 := by
  induction count generalizing heap evicted with
  | zero => exact .refl heap
  | succ count inductionHypothesis =>
      exact (Leads.deleteItem heap sequence 0).trans (inductionHypothesis _ _)

theorem Leads.queueItem {sequence element answer : Value} {capacity : Nat}
    (done : heap.queueItem sequence element capacity = .ok (answer, heap')) :
    Leads loose floor heap heap' := by
  unfold Heap.queueItem at done
  split at done
  next => exact .of_miss done
  next items _ =>
    split at done
    next => exact .of_miss done
    next =>
      obtain ⟨⟨pushed, heap₁⟩, pushing, done⟩ := bind_eq_ok.mp done
      obtain ⟨-, rfl⟩ := Prod.mk.inj (Except.ok.inj done)
      exact (Leads.evictItems sequence _ .null heap).trans (.pushItem pushing)

theorem Leads.sliceItems (heap : Heap σ) (sequence : Value) (offset : Int) (count : Nat) :
    Leads loose floor heap (heap.sliceItems sequence offset count).2 := by
  unfold Heap.sliceItems
  split
  next => exact .refl heap
  next =>
    split
    next => exact .arrayOf heap []
    next => exact .arrayOf heap _

theorem Leads.setItemsFrom {sequence : Value} {index : Nat} {values : List Value}
    (done : setItemsFrom sequence index values heap = .ok heap') :
    Leads loose floor heap heap' := by
  induction values generalizing heap index with
  | nil =>
      obtain rfl := Except.ok.inj done
      exact .refl heap
  | cons value rest inductionHypothesis =>
      obtain ⟨⟨previous, heap₁⟩, written, done⟩ := bind_eq_ok.mp done
      exact (Leads.setItem written).trans (inductionHypothesis done)

theorem Leads.spliceItems {sequence answer : Value} {offset : Int} {count : Nat}
    {inserted : List Value}
    (done : heap.spliceItems sequence offset count inserted = .ok (answer, heap')) :
    Leads loose floor heap heap' := by
  unfold Heap.spliceItems at done
  split at done
  next => exact .of_miss done
  next index _ =>
    obtain ⟨⟨opened, heap₁⟩, expanded, done⟩ := bind_eq_ok.mp done
    obtain ⟨heap₂, written, done⟩ := bind_eq_ok.mp done
    obtain ⟨-, rfl⟩ := Prod.mk.inj (Except.ok.inj done)
    apply Leads.trans (.sliceItems heap sequence index count)
    apply Leads.trans (.collapseItems _ sequence index count)
    exact (Leads.expandItems expanded).trans (.setItemsFrom written)

theorem Leads.reverseItems (heap : Heap σ) (sequence : Value) :
    Leads loose floor heap (heap.reverseItems sequence).2 := by
  unfold Heap.reverseItems
  split
  next => exact .refl heap
  next items found => exact .setItems found fun item member => .inl (List.mem_reverse.mp member)

/-! ## Sorting -/

theorem Leads.restoreItems {sequence : Value} {items : List Value}
    (storable : ∀ item ∈ items, Storable loose item) :
    Leads loose floor heap (heap.restoreItems sequence items) := by
  unfold Heap.restoreItems
  split
  next strays found =>
    have restoring : Leads loose floor heap (heap.setChildren sequence items) :=
      .setItems found fun item member => .inr (storable item member)
    exact restoring.trans (.releaseAll _ strays)
  next => exact .refl heap

/-- The items leave the sequence. -/
theorem Leads.detach (heap : Heap σ) (sequence : Value) :
    Leads loose floor heap (heap.setChildren sequence []) :=
  .setChildren (by simp)

theorem Leads.sortItems (proper : heap.Proper loose) {call : Caller σ} {sequence : Value}
    {step : Nat} {outcome : Except Fault Unit}
    (done : CountedHeap.sortItems call sequence step none heap = .ok (outcome, heap')) :
    Leads loose floor heap heap' := by
  rcases sortItems_eq_ok Eq (fun _ => True) (fun _ => rfl) (fun _ _ _ => Eq.trans) trivial
      (fun _ _ => trivial) (by simp) done with
    ⟨-, rfl⟩ | ⟨items, items', after, found, perm, -, rfl, rfl⟩
  · exact .refl _
  · apply (Leads.detach heap sequence).trans (.restoreItems ?_)
    intro item member
    apply proper.storable
    rw [children_of_items? found]
    exact perm.subset member

/-! ## Tables -/

theorem Leads.bucketArray (proper : heap.Proper loose) {table : Value} {content : HashTable}
    (found : heap.table? table = some content) (slot : Nat) :
    Leads loose floor heap (heap.bucketArray table content slot).2 := by
  unfold Heap.bucketArray
  simp only
  split
  next => exact .refl heap
  next =>
    have new := not_issued_create proper.toConsistent (.array [] : Payload σ)
    have issued := proper.toConsistent.issued (isLive_of_table? found)
    have kept : ((heap.create (.array [])).2.retain (heap.create (.array [])).1).payload table =
        .hash content := by
      rw [payload_retain, payload_create_of_issued proper.toConsistent _ issued]
      exact table?_eq_some_iff.mp found
    have making : Leads loose floor heap (heap.create (.array [])).2 := .createSingle rfl
    apply (making.trans (.retain _ (heap.create (.array [])).1)).trans
    apply Leads.setTable
    · rw [kind, kept]
      rfl
    · intro bucket member
      rcases List.mem_or_eq_of_mem_set member with old | rfl
      · left
        rwa [children, kept]
      · exact .inr (storable_of_durable (isScratch_create _))

/-- Only the number of pairs is changed. -/
theorem Leads.setPairs {table : Value} {content content' : HashTable}
    (found : heap.table? table = some content) (same : content'.buckets = content.buckets) :
    Leads loose floor heap (heap.setTable table content') := by
  apply Leads.setTable (kind_of_table? found)
  intro bucket member
  rw [children_of_table? found, ← same]
  exact .inl member

theorem Leads.countPair (heap : Heap σ) (table : Value) :
    Leads loose floor heap (heap.countPair table) := by
  unfold Heap.countPair
  split
  next content found => exact .setPairs found rfl
  next => exact .refl heap

theorem Leads.uncountPair (heap : Heap σ) (table : Value) :
    Leads loose floor heap (heap.uncountPair table) := by
  unfold Heap.uncountPair
  split
  next content found => exact .setPairs found rfl
  next => exact .refl heap

/-- The buckets of a table are those it has, or absent ones. -/
theorem Leads.allocateBuckets {table : Value} {content : HashTable} {buckets : List Value}
    (found : heap.table? table = some content)
    (allocated : heap.allocatedBuckets content = .ok buckets) :
    Leads loose floor heap (heap.setTable table { content with buckets }) := by
  apply Leads.setTable (kind_of_table? found)
  intro bucket member
  rw [children_of_table? found]
  unfold allocatedBuckets at allocated
  split at allocated
  next =>
    obtain ⟨-, rfl⟩ := padTo_eq_ok_iff.mp allocated
    exact (mem_padded member).imp_left (by simp)
  next =>
    obtain rfl := Except.ok.inj allocated
    exact .inl member

theorem Leads.setKey (proper : heap.Proper loose) {table key value answer : Value}
    (done : heap.setKey table key value = .ok (answer, heap')) : Leads loose floor heap heap' := by
  unfold Heap.setKey at done
  simp only at done
  split at done
  next => exact .of_miss done
  next content found =>
    obtain ⟨buckets, allocated, done⟩ := bind_eq_ok.mp done
    have allocating : Leads loose floor heap (heap.setTable table { content with buckets }) :=
      .allocateBuckets found allocated
    have tableFound : (heap.setTable table { content with buckets }).table? table =
        some { content with buckets } := by
      rw [table?_eq_some_iff, setTable_eq_setPayload, payload_setPayload,
        if_pos ⟨rfl, isLive_of_table? found⟩]
    apply allocating.trans
    apply Leads.trans (.bucketArray (allocating.proper proper) tableFound
      (Text.bucketOf (heap.text key) buckets.length))
    revert done
    generalize Heap.bucketArray _ table { content with buckets } _ = bucket
    intro done
    split at done
    next => exact .of_miss done
    next =>
      split at done
      next => exact .setItem done
      next =>
        obtain ⟨⟨opened, heap₁⟩, expanded, done⟩ := bind_eq_ok.mp done
        obtain ⟨⟨previous, heap₂⟩, written, done⟩ := bind_eq_ok.mp done
        exact (((Leads.expandItems expanded).trans (.setItem written)).trans
          (.countPair _ table)).trans (.setItem done)

theorem Leads.clearItem (heap : Heap σ) (sequence : Value) (index : Nat) :
    Leads loose floor heap (heap.clearItem sequence index).2 := by
  unfold Heap.clearItem
  split
  next => exact .refl heap
  next items found =>
    have clearing : Leads loose floor heap
        (heap.replaceItem sequence (items ++ List.replicate 0 .null) index .null).2 :=
      .replaceItem found index storable_null
    rwa [List.replicate_zero, List.append_nil] at clearing

theorem Leads.eraseKey (heap : Heap σ) (table key : Value) :
    Leads loose floor heap (heap.eraseKey table key).2 := by
  unfold Heap.eraseKey
  split
  next => exact .refl heap
  next bucket index _ =>
    apply Leads.trans (.clearItem heap bucket index)
    apply Leads.trans (.clearItem _ bucket (index + 1))
    exact (Leads.collapseItems _ bucket index 2).trans (.uncountPair _ table)

/-! ## Strings -/

theorem Leads.pushStrings {array : Value} {contents : List String}
    (done : Heap.pushStrings array contents heap = .ok heap') : Leads loose floor heap heap' := by
  induction contents generalizing heap with
  | nil =>
      obtain rfl := Except.ok.inj done
      exact .refl heap
  | cons content rest inductionHypothesis =>
      obtain ⟨⟨stored, pushed⟩, pushing, last⟩ := bind_eq_ok.mp done
      have making : Leads loose floor heap (heap.string content).2 := .createSingle rfl
      exact (making.trans (.pushItem pushing)).trans (inductionHypothesis last)

theorem Leads.split {separator text answer : Value}
    (done : heap.split separator text = .ok (answer, heap')) : Leads loose floor heap heap' := by
  obtain ⟨⟨array, made⟩, making, done⟩ := bind_eq_ok.mp done
  obtain ⟨pushed, pushing, done⟩ := bind_eq_ok.mp done
  obtain ⟨-, rfl⟩ := Prod.mk.inj (Except.ok.inj done)
  exact (Leads.array making).trans (.pushStrings pushing)

theorem Leads.join (heap : Heap σ) (separator sequence : Value) :
    Leads loose floor heap (heap.join separator sequence).2 := by
  unfold Heap.join
  split
  next => exact .createSingle rfl
  next => exact .createSingle rfl

theorem Leads.splice (heap : Heap σ) (text inserted : Value) (offset length : Int) :
    Leads loose floor heap (heap.splice text inserted offset length).2 := by
  unfold Heap.splice
  exact Leads.trans (.createSingle rfl) (.createSingle rfl)

/-! ## Scopes -/

theorem Leads.unwind {mark : Nat} (above : floor ≤ mark) :
    Leads loose floor heap (heap.unwind mark) :=
  (Leads.of_change (.dropScratch above) rfl).trans (.releaseAll _ _)

/-- An operation in a scope of its own drops nothing that was in the pool before. -/
theorem Leads.inScope {α : Type} {body : Heap σ → Except Exhausted (α × Heap σ)} {answer : α}
    (inside : floor ≤ heap.scratch.size)
    (leads : ∀ {after}, body heap = .ok (answer, after) → Leads loose floor heap after)
    (done : heap.inScope body = .ok (answer, heap')) : Leads loose floor heap heap' := by
  obtain ⟨⟨answer, after⟩, ran, last⟩ := bind_eq_ok.mp done
  obtain ⟨rfl, rfl⟩ := Prod.mk.inj (Except.ok.inj last)
  exact (leads ran).trans (.unwind inside)

theorem Leads.scratchString (heap : Heap σ) (content : String) :
    Leads loose floor heap (heap.scratchString content).2 :=
  .createScratch rfl (.inl rfl)

/-! ## Paths -/

theorem Leads.putChild (proper : heap.Proper loose) {container value answer : Value}
    {part : String} (done : heap.putChild container part value = .ok (answer, heap')) :
    Leads loose floor heap heap' := by
  have making : Leads loose floor heap (heap.scratchString part).2 := .scratchString heap part
  unfold Heap.putChild at done
  split at done
  next => exact making.trans (.setKey (making.proper proper) done)
  next => exact .setItem done
  next => exact .setItem done
  next => exact .of_miss done

theorem Leads.storeBelow (proper : heap.Proper loose) {current value answer : Value}
    {parts : List String} (done : Heap.storeBelow current parts value heap = .ok (answer, heap')) :
    Leads loose floor heap heap' := by
  induction parts generalizing heap current with
  | nil => exact .of_miss done
  | cons part rest inductionHypothesis =>
      rw [Heap.storeBelow.eq_def] at done
      simp only at done
      split at done
      next =>
        split at done
        next => exact .putChild proper done
        next =>
          split at done
          next =>
            obtain ⟨⟨stored, between⟩, putting, last⟩ := bind_eq_ok.mp done
            have making : Leads loose floor heap heap.hash.2 := .createSingle rfl
            have put := making.trans (.putChild (making.proper proper) putting)
            exact put.trans (inductionHypothesis (put.proper proper) last)
          next =>
            split at done
            next => exact inductionHypothesis proper done
            next => exact .of_miss done
      next => exact .of_miss done

theorem Leads.setPath (proper : heap.Proper loose) (inside : floor ≤ heap.scratch.size)
    {root path value answer : Value} (done : heap.setPath root path value = .ok (answer, heap')) :
    Leads loose floor heap heap' :=
  .inScope inside (fun ran => .storeBelow proper ran) done

/-! ## Registries -/

theorem Leads.installEntries (proper : heap.Proper loose) {table : Value}
    {entries : List (String × Function σ)}
    (done : Registry.installEntries table entries heap = .ok heap') :
    Leads loose floor heap heap' := by
  induction entries generalizing heap with
  | nil =>
      obtain rfl := Except.ok.inj done
      exact .refl heap
  | cons entry rest inductionHypothesis =>
      obtain ⟨name, function⟩ := entry
      obtain ⟨⟨stored, after⟩, storing, last⟩ := bind_eq_ok.mp done
      have making : Leads loose floor heap ((heap.native function).2.scratchString name).2 :=
        Leads.trans (.createSingle rfl) (.scratchString _ name)
      have install := making.trans (.setKey (making.proper proper) storing)
      exact install.trans (inductionHypothesis (install.proper proper) last)

theorem Leads.installInto (proper : heap.Proper loose) (inside : floor ≤ heap.scratch.size)
    {registry : Registry σ} {table : Value} {count : Nat}
    (done : registry.installInto heap table = .ok (count, heap')) :
    Leads loose floor heap heap' := by
  unfold Registry.installInto at done
  split at done
  next =>
    apply Leads.inScope inside _ done
    intro after ran
    obtain ⟨between, entries, last⟩ := bind_eq_ok.mp ran
    obtain ⟨-, rfl⟩ := Prod.mk.inj (Except.ok.inj last)
    exact .installEntries proper entries
  next => exact .of_miss done

/-! ## Requests -/

theorem Leads.perform (proper : heap.Proper loose) (inside : floor ≤ heap.scratch.size)
    {request : Request σ} (done : heap.perform request = .ok heap') :
    Leads loose floor heap heap' := by
  cases request with
  | string | int | real | nullCell | hash | file | native =>
      obtain rfl := Except.ok.inj done
      exact .createSingle rfl
  | scratchString | scratchInt | scratchReal =>
      obtain rfl := Except.ok.inj done
      exact .createScratch rfl (.inl rfl)
  | closure name auxiliary =>
      obtain rfl := Except.ok.inj done
      exact .closure heap name auxiliary
  | array capacity =>
      obtain ⟨answer, ran⟩ := settle_eq_ok done
      exact .array ran
  | scratchArray capacity =>
      obtain ⟨answer, ran⟩ := settle_eq_ok done
      exact .scratchArray ran
  | arrayOf items =>
      obtain rfl := Except.ok.inj done
      exact .arrayOf heap items
  | program items =>
      obtain rfl := Except.ok.inj done
      exact .program heap items
  | own value =>
      obtain rfl := Except.ok.inj done
      exact .own heap value
  | clone value =>
      obtain rfl := Except.ok.inj done
      exact (Copying.clone value heap).1
  | expandItems =>
      obtain ⟨answer, ran⟩ := settle_eq_ok done
      exact .expandItems ran
  | collapseItems sequence offset count =>
      obtain rfl := Except.ok.inj done
      exact .collapseItems heap sequence offset count
  | setItem =>
      obtain ⟨answer, ran⟩ := settle_eq_ok done
      exact .setItem ran
  | insertItem =>
      obtain ⟨answer, ran⟩ := settle_eq_ok done
      exact .insertItem ran
  | deleteItem sequence offset =>
      obtain rfl := Except.ok.inj done
      exact .deleteItem heap sequence offset
  | pushItem =>
      obtain ⟨answer, ran⟩ := settle_eq_ok done
      exact .pushItem ran
  | popItem sequence =>
      obtain rfl := Except.ok.inj done
      exact .deleteItem heap sequence (-1)
  | queueItem =>
      obtain ⟨answer, ran⟩ := settle_eq_ok done
      exact .queueItem ran
  | sliceItems sequence offset count =>
      obtain rfl := Except.ok.inj done
      exact .sliceItems heap sequence offset count
  | spliceItems =>
      obtain ⟨answer, ran⟩ := settle_eq_ok done
      exact .spliceItems ran
  | reverseItems sequence =>
      obtain rfl := Except.ok.inj done
      exact .reverseItems heap sequence
  | sortItems =>
      obtain ⟨answer, ran⟩ := settle_eq_ok done
      exact .sortItems proper ran
  | setKey =>
      obtain ⟨answer, ran⟩ := settle_eq_ok done
      exact .setKey proper ran
  | eraseKey table key =>
      obtain rfl := Except.ok.inj done
      exact .eraseKey heap table key
  | keys | values =>
      obtain rfl := Except.ok.inj done
      exact .arrayOf heap _
  | setPath =>
      obtain ⟨answer, ran⟩ := settle_eq_ok done
      exact .setPath proper inside ran
  | split =>
      obtain ⟨answer, ran⟩ := settle_eq_ok done
      exact .split ran
  | join separator sequence =>
      obtain rfl := Except.ok.inj done
      exact .join heap separator sequence
  | splice text inserted offset length =>
      obtain rfl := Except.ok.inj done
      exact .splice heap text inserted offset length
  | install =>
      obtain ⟨count, ran⟩ := settle_eq_ok done
      exact .installInto proper inside ran
  | setSweepBatch | setLowWater =>
      obtain rfl := Except.ok.inj done
      exact .tune heap _ _

/-! ## Sweeping -/

/-- A visit of a slab that is not empty. -/
theorem Leads.visit (progress : Progress) (nonempty : 0 < heap.slots.size) :
    Leads loose floor heap (Heap.visit progress heap).2 := by
  have inside := nextVisit_lt nonempty
  rcases visit_cases progress heap with ⟨passed, -⟩ | ⟨cell, occupied, unheld, reclaimed⟩
  · rw [passed]
    exact .advance inside
  · rw [reclaimed]
    have vacating : Leads loose floor heap (heap.vacate heap.nextVisit) :=
      .of_change (.vacate occupied unheld) rfl
    refine (vacating.trans (.releaseAll _ _)).trans (.advance ?_)
    rw [size_releaseAll]
    rwa [Heap.vacate, Array.size_modify]

/-- Any number of visits, of which an empty slab gets none. -/
theorem Leads.sweepVisits (limit? floor? : Option Nat) {visits : Nat} (progress : Progress)
    (enough : visits ≤ heap.slots.size) :
    Leads loose floor heap (Heap.sweepVisits limit? floor? visits progress heap).2 := by
  rcases Nat.eq_zero_or_pos heap.slots.size with empty | nonempty
  · obtain rfl := Nat.le_zero.mp (empty ▸ enough)
    exact .refl heap
  · have visited := sweepVisits_induction
      (fun current => Leads loose floor heap current ∧ 0 < current.slots.size)
      (fun progress current before => ⟨before.1.trans (.visit progress before.2), by
        rw [size_visit]
        exact before.2⟩)
      limit? floor? visits progress ⟨.refl heap, nonempty⟩
    exact visited.1

theorem Leads.sweep (heap : Heap σ) (budget : Budget) :
    Leads loose floor heap (heap.sweep budget).2 :=
  (Leads.sweepVisits _ _ {} (Nat.le_refl _)).trans (.tune _ _ _)

end Heap

end CountedHeap
