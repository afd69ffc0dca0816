import CountedHeap.Proofs.Comparators
import CountedHeap.Proofs.Copies
import CountedHeap.Proofs.OrderLaws

/-!
Contract: what a sort by the order of values leaves in the sequence.

The items are out of the sequence while they are compared, so the comparisons are made in a heap in
which the sequence is empty.  An element that leads to the sequence can have another size or another
text there.  Where no leading element leads to the sequence the comparisons are those of the result.

Owns:
- the records of any sort by the order of values;
- their order, as the heap in which the sequence is empty compares them;
- their order in the result, if no leading element leads to the sequence;
- an array that holds itself and is not sorted.
-/

namespace CountedHeap.Heap

variable {σ : Signature} {heap heap' : Heap σ} {values : List Value}
  {records sorted : List (List Value)} {sequence : Value} {items : List Value}

/-! ## A transitive order -/

/-- Whether one value is not above another in the order of values. -/
def notAbove (heap : Heap σ) (left right : Value) : Bool :=
  (heap.compare left right).isLE

/-- The order of values is transitive on some values. -/
def TransitiveOn (heap : Heap σ) (values : List Value) : Prop :=
  ∀ first ∈ values, ∀ second ∈ values, ∀ third ∈ values,
    heap.notAbove first second = true → heap.notAbove second third = true →
      heap.notAbove first third = true

instance (heap : Heap σ) (values : List Value) : Decidable (heap.TransitiveOn values) :=
  inferInstanceAs (Decidable (∀ first ∈ values, ∀ second ∈ values, ∀ third ∈ values, _))

/-- The sorted records ascend by their leading elements, and those with equal leading elements keep
their order. -/
structure SortedFrom (heap : Heap σ) (records sorted : List (List Value)) : Prop where
  ascending : sorted.Pairwise fun first second =>
    heap.compare (leadOf first) (leadOf second) ≠ .gt
  stable : ∀ record ∈ records,
    let equal := fun other => heap.compare (leadOf record) (leadOf other) == .eq
    sorted.filter equal = records.filter equal

/-- One value is below another if the other is not below it or level with it. -/
theorem leadsBefore_eq (heap : Heap σ) :
    heap.leadsBefore = fun left right => !heap.notAbove (leadOf right) (leadOf left) := by
  funext left right
  rw [leadsBefore, notAbove, compare_swap (leadOf left), ← leadOf, ← leadOf]
  cases heap.compare (leadOf left) (leadOf right) <;> rfl

theorem notAbove_both (left right : Value) :
    (heap.notAbove left right && heap.notAbove right left) =
      (heap.compare left right == .eq) := by
  rw [notAbove, notAbove, compare_swap left right]
  cases heap.compare left right <;> rfl

/-- Where the order is transitive it is a total preorder, since it is antisymmetric everywhere. -/
theorem TransitiveOn.totalPreorder (transitive : heap.TransitiveOn values) :
    TotalPreorder (· ∈ values) heap.notAbove where
  total := fun {left right} _ _ => by
    rw [notAbove, notAbove, compare_swap left right]
    cases heap.compare left right with
    | lt | eq => exact .inl rfl
    | gt => exact .inr rfl
  trans := fun isFirst isSecond isThird => transitive _ isFirst _ isSecond _ isThird

/-- Where the order is transitive on the leading elements, the sort by it sorts. -/
theorem TransitiveOn.sortedFrom (transitive : heap.TransitiveOn (records.map leadOf)) :
    heap.SortedFrom records (Records.mergeSortM (m := Id) heap.leadsBefore records) := by
  obtain ⟨ascending, stable⟩ := transitive.totalPreorder.sorts
  rw [leadsBefore_eq]
  refine ⟨ascending.imp fun {first second} notAbove above => ?_, fun record member => ?_⟩
  · rw [Heap.notAbove, above] at notAbove
    contradiction
  · simpa only [notAbove_both] using stable record member

/-! ## Heaps that compare alike -/

/-- Two heaps compare some values alike. -/
def ComparesAs (heap heap' : Heap σ) (values : List Value) : Prop :=
  ∀ left ∈ values, ∀ right ∈ values, heap'.compare left right = heap.compare left right

/-- A change of a value that none of the compared values leads to is not noticed. -/
theorem comparesAs_of_not_below
    (payload : ∀ value, value ≠ sequence → heap'.payload value = heap.payload value)
    (apart : ∀ value ∈ values, ¬heap.Below value sequence) : heap.ComparesAs heap' values := by
  intro left leftMember right rightMember
  let kept : Set Value := {value | ∃ source ∈ values, heap.Below source value}
  have same : ∀ {value}, value ∈ kept → heap'.payload value = heap.payload value := by
    rintro value ⟨source, member, below⟩
    apply payload
    rintro rfl
    exact apart source member below
  have closed : ∀ {value child}, value ∈ kept → child ∈ heap.children value → child ∈ kept := by
    rintro value child ⟨source, member, below⟩ isChild
    exact ⟨source, member, below.tail isChild⟩
  exact compare_congr same closed ⟨left, leftMember, .refl⟩ ⟨right, rightMember, .refl⟩

theorem ComparesAs.symm (alike : heap.ComparesAs heap' values) :
    heap'.ComparesAs heap values :=
  fun left leftMember right rightMember => (alike left leftMember right rightMember).symm

theorem ComparesAs.transitiveOn (alike : heap.ComparesAs heap' values)
    (transitive : heap.TransitiveOn values) : heap'.TransitiveOn values := by
  intro first isFirst second isSecond third isThird
  rw [notAbove, notAbove, notAbove, alike _ isFirst _ isSecond, alike _ isSecond _ isThird,
    alike _ isFirst _ isThird]
  exact transitive first isFirst second isSecond third isThird

/-- Records that are sorted in one heap are sorted in each that compares their leading elements
alike. -/
theorem ComparesAs.sortedFrom (alike : heap.ComparesAs heap' (records.map leadOf))
    (perm : sorted.Perm records) (done : heap.SortedFrom records sorted) :
    heap'.SortedFrom records sorted := by
  have same : ∀ {first second}, first ∈ records → second ∈ records →
      heap'.compare (leadOf first) (leadOf second) =
        heap.compare (leadOf first) (leadOf second) := fun isFirst isSecond =>
    alike _ (List.mem_map_of_mem isFirst) _ (List.mem_map_of_mem isSecond)
  refine ⟨done.ascending.imp_of_mem fun {first second} isFirst isSecond notAbove => ?_,
    fun record member => ?_⟩
  · rwa [same (perm.subset isFirst) (perm.subset isSecond)]
  · have level : ∀ other ∈ records,
        (heap'.compare (leadOf record) (leadOf other) == .eq) =
          (heap.compare (leadOf record) (leadOf other) == .eq) := fun other isOther => by
      rw [same member isOther]
    dsimp only
    rw [List.filter_congr level, List.filter_congr fun other isOther =>
      level other (perm.subset isOther)]
    exact done.stable record member

/-! ## The sort -/

theorem payload_detached {value : Value} (different : value ≠ sequence) :
    (heap.setChildren sequence []).payload value = heap.payload value := by
  rw [setChildren_eq_setPayload, payload_setPayload, if_neg fun both => different both.1]

theorem refs_detached (value : Value) :
    (heap.setChildren sequence []).refs value = heap.refs value := by
  rw [setChildren_eq_setPayload, refs_setPayload]

theorem isLive_detached (value : Value) :
    (heap.setChildren sequence []).isLive value = heap.isLive value := by
  rw [setChildren_eq_setPayload, isLive_setPayload]

/-- What a sort by the order of values leaves in the sequence.

The sort succeeds, whatever the order.  The records are whole, they are permuted, and the elements
that were left over stay behind them; no other value changes.  If the order of the heap in which the
sequence is empty is transitive on the leading elements, the records are sorted by that order.  If
no leading element leads to the sequence, the heap before, the one with the empty sequence and the
result compare the leading elements alike, so that the records are sorted by the order of the result
if the order was transitive before. -/
theorem sort_in_order (found : heap.items? sequence = some items) (call : Caller σ) (step : Nat) :
    let width := max step 1
    let records := (Records.cutRecords width (items.length / width) items).1
    let rest := (Records.cutRecords width (items.length / width) items).2
    let leads := records.map leadOf
    let detached := heap.setChildren sequence []
    (records.flatten ++ rest = items ∧ (∀ record ∈ records, record.length = width) ∧
      rest.length = items.length % width) ∧
    ∃ heap', ∃ sorted : List (List Value),
      sortItems call sequence step none heap = .ok (.ok (), heap') ∧
      sorted.Perm records ∧ heap'.items? sequence = some (sorted.flatten ++ rest) ∧
      (∀ value, value ≠ sequence → heap'.payload value = heap.payload value) ∧
      (∀ value, heap'.refs value = heap.refs value ∧ heap'.isLive value = heap.isLive value) ∧
      (detached.TransitiveOn leads → detached.SortedFrom records sorted) ∧
      ((∀ lead ∈ leads, ¬heap.Below lead sequence) →
        heap.ComparesAs detached leads ∧ heap.ComparesAs heap' leads ∧
        (heap.TransitiveOn leads → heap'.SortedFrom records sorted)) := by
  intro width records rest leads detached
  have empty : detached.items? sequence = some [] := items?_setChildren found
  let sorted := Records.mergeSortM (m := Id) detached.leadsBefore records
  have perm : sorted.Perm records := Records.mergeSortM_perm _ records
  have same : ∀ value, value ≠ sequence → detached.payload value = heap.payload value :=
    fun value different => payload_detached different
  have same' : ∀ value, value ≠ sequence →
      (detached.restoreItems sequence (sorted.flatten ++ rest)).payload value =
        heap.payload value :=
    fun value different =>
      (payload_restoreItems different _).trans (payload_detached different)
  refine ⟨Records.cutRecords_whole items width, _, sorted, sortItems_in_order found call step,
    perm, items?_restoreItems empty _, same', fun value => ⟨?_, ?_⟩, TransitiveOn.sortedFrom,
    fun apart => ?_⟩
  · rw [refs_restoreItems empty, List.count_nil, Nat.sub_zero]
    exact refs_detached value
  · rw [isLive_restoreItems]
    exact isLive_detached value
  · have alike : heap.ComparesAs detached leads := comparesAs_of_not_below same apart
    have alike' := comparesAs_of_not_below same' apart
    refine ⟨alike, alike', fun transitive => ?_⟩
    -- Sorted where they are compared, the records are sorted before that, and in the result.
    have before : heap.SortedFrom records sorted :=
      alike.symm.sortedFrom perm (alike.transitiveOn transitive).sortedFrom
    exact alike'.sortedFrom perm before

/-- Records of two with an element left over: the first and the last record lead with the same
number. -/
def tagged : Heap .bare :=
  let heap := (((((Heap.new {}).int 2).2.int 1).2.int 2).2.string "x").2
  (heap.arrayOf [.cell ⟨0, 0⟩, .cell ⟨3, 0⟩, .cell ⟨1, 0⟩, .null, .cell ⟨2, 0⟩, .null,
    .cell ⟨1, 0⟩]).2

theorem tagged_in_order : ∃ heap', ∃ sorted : List (List Value),
    sortItems idleCaller (.cell ⟨4, 0⟩) 2 none tagged = .ok (.ok (), heap') ∧
      heap'.items? (.cell ⟨4, 0⟩) = some (sorted.flatten ++ [.cell ⟨1, 0⟩]) ∧
      heap'.SortedFrom [[.cell ⟨0, 0⟩, .cell ⟨3, 0⟩], [.cell ⟨1, 0⟩, .null],
        [.cell ⟨2, 0⟩, .null]] sorted := by
  have found : tagged.items? (.cell ⟨4, 0⟩) = some [.cell ⟨0, 0⟩, .cell ⟨3, 0⟩, .cell ⟨1, 0⟩,
      .null, .cell ⟨2, 0⟩, .null, .cell ⟨1, 0⟩] := by
    decide +kernel
  have childless : ∀ lead ∈ [.cell ⟨0, 0⟩, .cell ⟨1, 0⟩, .cell ⟨2, 0⟩],
      tagged.children lead = [] ∧ lead ≠ .cell ⟨4, 0⟩ := by
    decide +kernel
  obtain ⟨-, heap', sorted, sorting, -, after, -, -, -, apart⟩ :=
    sort_in_order found idleCaller 2
  refine ⟨heap', sorted, sorting, after, (apart fun lead member below => ?_).2.2
    (by decide +kernel)⟩
  obtain ⟨none, different⟩ := childless lead member
  exact different (below.eq_of_children_nil none).symm

/-- An array of one number, and an array of itself and of that array. -/
def selfLeading : List (Request .bare) :=
  [.array 0, .int 1, .arrayOf [.cell ⟨1, 0⟩], .pushItem (.cell ⟨0, 0⟩) (.cell ⟨0, 0⟩),
    .pushItem (.cell ⟨0, 0⟩) (.cell ⟨2, 0⟩)]

theorem isSome_selfLeading : ((new {}).performAll? selfLeading).isSome = true := by
  decide +kernel

/-- The heap with both arrays. -/
def selfLed : Heap .bare :=
  ((new {}).performAll? selfLeading).get isSome_selfLeading

/-- The array is compared while it is empty, so it stays before the array of one number.  With its
two elements it is above that one. -/
theorem selfLed_out_of_order :
    Runs False (.new {}) selfLed ∧
      selfLed.items? (.cell ⟨0, 0⟩) = some [.cell ⟨0, 0⟩, .cell ⟨2, 0⟩] ∧
      selfLed.TransitiveOn [.cell ⟨0, 0⟩, .cell ⟨2, 0⟩] ∧
      ((sortItems idleCaller (.cell ⟨0, 0⟩) 1 none selfLed).toOption.map fun answer =>
        (answer.1.isOk, answer.2.items? (.cell ⟨0, 0⟩),
          decide (answer.2.TransitiveOn [.cell ⟨0, 0⟩, .cell ⟨2, 0⟩]),
          answer.2.compare (.cell ⟨0, 0⟩) (.cell ⟨2, 0⟩))) =
        some (true, some [.cell ⟨0, 0⟩, .cell ⟨2, 0⟩], true, .gt) :=
  ⟨Runs.refl.performAll? (Option.some_get isSome_selfLeading).symm, by decide +kernel⟩

end CountedHeap.Heap
