import CountedHeap.Proofs.Scripts
import CountedHeap.Proofs.Search
import CountedHeap.Sequence.Search

/-!
Contract: the two searches of a sorted sequence, for every step.

The comparisons of the leading elements with the key run from below over level to above.  The binary
search bisects the whole records.  The linear search looks at every leading position, and so at the
front of an incomplete record at the end as well.

Owns:
- the leading elements of a sequence;
- what each of the searches answers, from how many leading elements are below and level;
- their agreement on whole records, and on all if the elements left over do not lead with one that
  is below or level;
- a sequence whose incomplete record is found by one of them.
-/

namespace CountedHeap

/-- The elements at the positions zero, `step`, twice `step` and so on. -/
def leadingElements (step : Nat) (items : List Value) : List Value :=
  (List.range ((items.length + step - 1) / step)).map fun record => items.getD (record * step) .null

/-- A leading position is one of the list. -/
theorem lt_leading_count {step length record : Nat} (positive : 0 < step) :
    record < (length + step - 1) / step ↔ record * step < length := by
  rw [Nat.lt_div_iff_mul_lt positive]
  have next : step * record = record * step := Nat.mul_comm _ _
  omega

theorem getElem?_leadingElements {step : Nat} (positive : 0 < step) (items : List Value)
    (record : Nat) : (leadingElements step items)[record]? = items[record * step]? := by
  rw [leadingElements, List.getElem?_map]
  by_cases inside : record * step < items.length
  · rw [List.getElem?_range ((lt_leading_count positive).mpr inside), Option.map_some,
      List.getD_eq_getElem?_getD, List.getElem?_eq_getElem inside, Option.getD_some]
  · rw [List.getElem?_eq_none (Nat.le_of_not_lt inside), Option.map_eq_none_iff,
      List.getElem?_eq_none_iff, List.length_range]
    exact Nat.le_of_not_lt (mt (lt_leading_count positive).mp inside)

namespace Records

/-- Bisection answers the number up to which `below` holds. -/
theorem firstNotBelow_eq {below : Nat → Bool} {border high : Nat} (bound : border ≤ high)
    (isBelow : ∀ {number}, number < high → (below number = true ↔ number < border)) :
    firstNotBelow below 0 high = border := by
  have downward : ∀ {first second}, first ≤ second → second < high → below second = true →
      below first = true := fun order limit holds =>
    (isBelow (by omega)).mpr (Nat.lt_of_le_of_lt order ((isBelow limit).mp holds))
  obtain ⟨before, after⟩ := firstNotBelow_spec (Nat.zero_le high) downward
  have bounds := (firstNotBelow_bounds below (Nat.zero_le high)).2
  rcases Nat.lt_trichotomy (firstNotBelow below 0 high) border with early | same | late
  · have holds := (isBelow (by omega)).mpr early
    rw [after _ le_rfl (by omega)] at holds
    contradiction
  · exact same
  · exact absurd ((isBelow (by omega)).mp (before border (Nat.zero_le _) late)) (by omega)

variable {items : List Value} {step less equal greater : Nat} {probe : Value → Ordering}

/-- The comparisons of the leading elements are `less` that are below, then `equal` that are level,
then `greater` that are above. -/
def RunsUp (items : List Value) (step : Nat) (probe : Value → Ordering)
    (less equal greater : Nat) : Prop :=
  (leadingElements (max step 1) items).map probe =
    List.replicate less .lt ++ List.replicate equal .eq ++ List.replicate greater .gt

instance (items : List Value) (step : Nat) (probe : Value → Ordering)
    (less equal greater : Nat) : Decidable (RunsUp items step probe less equal greater) :=
  inferInstanceAs (Decidable (_ = _))

/-- The number of a leading element says how it compares. -/
theorem RunsUp.probe_eq (runs : RunsUp items step probe less equal greater) {record : Nat}
    {element : Value} (there : items[record * max step 1]? = some element) :
    probe element =
      if record < less then .lt else if record < less + equal then .eq else .gt := by
  have positive : 0 < max step 1 := by omega
  have compared := congrArg (·[record]?) runs
  simp only [List.getElem?_map, getElem?_leadingElements positive, there, Option.map_some,
    List.getElem?_append, List.length_append, List.length_replicate,
    List.getElem?_replicate] at compared
  by_cases below : record < less
  · have front : record < less + equal := by omega
    simpa [below, front] using compared
  by_cases level : record < less + equal
  · have within : record - less < equal := by omega
    simpa [below, level, within] using compared
  · by_cases above : record - (less + equal) < greater
    · simpa [below, level, above] using compared
    · simp [level, above] at compared

theorem RunsUp.count (runs : RunsUp items step probe less equal greater) :
    (items.length + max step 1 - 1) / max step 1 = less + equal + greater := by
  have count := congrArg List.length runs
  simpa only [leadingElements, List.length_map, List.length_range, List.length_append,
    List.length_replicate] using count

theorem RunsUp.leads_eq (runs : RunsUp items step probe less equal greater) {record : Nat}
    (inside : record * max step 1 < items.length) (expected : Ordering) :
    leads items (max step 1) probe expected record =
      ((if record < less then .lt else if record < less + equal then .eq else .gt) ==
        expected) := by
  have there := List.getElem?_eq_getElem inside
  rw [leads, there, Option.any_some, runs.probe_eq there]

/-- A record is whole if its last element is in the list. -/
theorem lt_div_iff {width length record : Nat} (positive : 0 < width) :
    record < length / width ↔ record * width + width ≤ length := by
  rw [← Nat.succ_le_iff, Nat.le_div_iff_mul_le positive, Nat.succ_mul]

/-- A leading position that is not that of a whole record is that of the elements left over. -/
theorem eq_div_of_left_over {width length record : Nat} (positive : 0 < width)
    (inside : record * width < length) (leftOver : ¬record * width + width ≤ length) :
    record = length / width := by
  have least := (Nat.le_div_iff_mul_le positive).mpr (Nat.le_of_lt inside)
  have most := mt (lt_div_iff positive).mp leftOver
  omega

/-- Bisection stops behind the whole records that are below, and finds the next one if it is
level. -/
theorem RunsUp.seek_eq (runs : RunsUp items step probe less equal greater) :
    seek items step probe =
      if less < items.length / max step 1 ∧ 0 < equal then .found (less * max step 1)
      else .missing (min less (items.length / max step 1) * max step 1) := by
  have positive : 0 < max step 1 := by omega
  have inside : ∀ {record}, record < items.length / max step 1 →
      record * max step 1 < items.length := fun whole =>
    Nat.lt_of_lt_of_le (by omega) ((lt_div_iff positive).mp whole)
  have isBelow : ∀ {record}, record < items.length / max step 1 →
      (leads items (max step 1) probe .lt record = true ↔ record < less) := by
    intro record whole
    rw [runs.leads_eq (inside whole)]
    split
    next below => simp [below]
    next notBelow => split <;> simp [notBelow]
  unfold seek
  dsimp only
  rw [firstNotBelow_eq (Nat.min_le_right less _) fun whole => by rw [isBelow whole]; omega]
  by_cases front : less < items.length / max step 1
  · rw [Nat.min_eq_left (Nat.le_of_lt front), runs.leads_eq (inside front)]
    by_cases level : 0 < equal <;> simp [front, level]
  · rw [Nat.min_eq_right (Nat.le_of_not_lt front)]
    simp [front]

end Records

namespace Heap

variable {σ : Signature} {heap : Heap σ} {sequence key : Value} {items : List Value}
  {step less equal greater : Nat}

/-- The linear search finds the first leading element that is level. -/
theorem linearSeek_of_runsUp (found : heap.items? sequence = some items)
    (runs : Records.RunsUp items step (heap.compare · key) less equal greater) :
    heap.linearSeek sequence key step = if 0 < equal then some (less * max step 1) else none := by
  have positive : 0 < max step 1 := by omega
  have asked : ∀ {record}, record < (items.length + max step 1 - 1) / max step 1 →
      (items[record * max step 1]?.any fun element => heap.compare element key == .eq) =
        ((if record < less then .lt else if record < less + equal then .eq else .gt) ==
          Ordering.eq) :=
    fun leading => runs.leads_eq ((lt_leading_count positive).mp leading) .eq
  have count := runs.count
  rw [linearSeek, found]
  dsimp only
  rw [List.find?_map]
  by_cases level : 0 < equal
  · rw [if_pos level]
    apply Option.map_eq_some_iff.mpr ⟨less, List.find?_range_eq_some.mpr ⟨?_, ?_, ?_⟩, rfl⟩
    · rw [Function.comp_apply, asked (by omega)]
      simp [level]
    · rw [List.mem_range]
      omega
    · intro other before
      rw [Function.comp_apply, asked (by omega)]
      simp [before]
  · rw [if_neg level, Option.map_eq_none_iff, List.find?_eq_none]
    intro record leading
    rw [Function.comp_apply, asked (List.mem_range.mp leading)]
    split
    · decide
    · rw [if_neg (by omega)]
      decide

/-- The binary search finds the first leading element that is level, if its record is whole. -/
theorem binarySeek_of_runsUp (found : heap.items? sequence = some items)
    (runs : Records.RunsUp items step (heap.compare · key) less equal greater) :
    heap.binarySeek sequence key step =
      if less < items.length / max step 1 ∧ 0 < equal then .found (less * max step 1)
      else .missing (min less (items.length / max step 1) * max step 1) := by
  rw [binarySeek, found]
  exact runs.seek_eq

/-- Where the binary search finds nothing, the place that it answers is behind the leading elements
that are below, and before those of whole records that are above. -/
theorem missing_of_runsUp (found : heap.items? sequence = some items)
    (runs : Records.RunsUp items step (heap.compare · key) less equal greater) {place : Nat}
    (missing : heap.binarySeek sequence key step = .missing place) {record : Nat} {element : Value}
    (there : items[record * max step 1]? = some element) :
    (record * max step 1 < place → heap.compare element key = .lt) ∧
      (place ≤ record * max step 1 → record * max step 1 + max step 1 ≤ items.length →
        heap.compare element key = .gt) := by
  have positive : 0 < max step 1 := by omega
  rw [binarySeek_of_runsUp found runs] at missing
  split at missing
  next => contradiction
  next notFound =>
    obtain rfl := Seek.missing.inj missing
    have compared := runs.probe_eq there
    refine ⟨fun before => ?_, fun after inside => ?_⟩
    · have below := Nat.lt_of_mul_lt_mul_right before
      rw [compared, if_pos (by omega)]
    · have notBelow := Nat.le_of_mul_le_mul_right after positive
      have isWhole := (Records.lt_div_iff positive).mpr inside
      rw [compared, if_neg (by omega), if_neg (by omega)]

/-- The searches of a sequence whose leading elements run from below over level to above the key.

Both find the same place in a whole record; the linear search finds one in an incomplete record as
well.  Where the binary search finds none, the leading elements before its answer are below the key,
and those of the whole records from there on are above it.  If no element is left over, or the first
of these is above the key, the searches agree on every place, and all leading elements from the
answer on are above. -/
theorem seeks_agree_on_records (found : heap.items? sequence = some items)
    (runs : Records.RunsUp items step (heap.compare · key) less equal greater) :
    let width := max step 1
    (∀ index, heap.binarySeek sequence key step = .found index ↔
      heap.linearSeek sequence key step = some index ∧ index + width ≤ items.length) ∧
    (∀ place, heap.binarySeek sequence key step = .missing place →
      ∀ record element, items[record * width]? = some element →
        (record * width < place → heap.compare element key = .lt) ∧
        (place ≤ record * width → record * width + width ≤ items.length →
          heap.compare element key = .gt)) ∧
    ((∀ element, items[items.length / width * width]? = some element →
        heap.compare element key = .gt) →
      (∀ index, heap.binarySeek sequence key step = .found index ↔
        heap.linearSeek sequence key step = some index) ∧
      ∀ place, heap.binarySeek sequence key step = .missing place →
        ∀ record element, items[record * width]? = some element →
          (record * width < place → heap.compare element key = .lt) ∧
          (place ≤ record * width → heap.compare element key = .gt)) := by
  dsimp only
  have positive : 0 < max step 1 := by omega
  have linear := linearSeek_of_runsUp found runs
  have agree : ∀ index, heap.binarySeek sequence key step = .found index ↔
      heap.linearSeek sequence key step = some index ∧ index + max step 1 ≤ items.length := by
    intro index
    rw [binarySeek_of_runsUp found runs, linear]
    by_cases level : 0 < equal
    · rw [if_pos level, Option.some.injEq]
      split
      next both =>
        rw [Seek.found.injEq, and_iff_left_of_imp]
        rintro rfl
        exact (Records.lt_div_iff positive).mp both.1
      next notBoth =>
        refine ⟨nofun, ?_⟩
        rintro ⟨rfl, inside⟩
        exact absurd ⟨(Records.lt_div_iff positive).mpr inside, level⟩ notBoth
    · rw [if_neg level, if_neg fun both => level both.2]
      exact ⟨nofun, nofun⟩
  refine ⟨agree,
    fun place missing record element there => missing_of_runsUp found runs missing there,
    fun above => ⟨fun index => (agree index).trans (and_iff_left_of_imp fun answered => ?_),
      fun place missing record element there => ?_⟩⟩
  · -- What the linear search finds is level, so it does not lead the elements left over.
    rw [linear] at answered
    split at answered
    next level =>
      obtain rfl := Option.some.inj answered
      by_contra leftOver
      have inside : less * max step 1 < items.length :=
        (lt_leading_count positive).mp (by rw [runs.count]; omega)
      have there := List.getElem?_eq_getElem inside
      have isAbove : heap.compare items[less * max step 1] key = .gt := by
        apply above
        rw [← Records.eq_div_of_left_over positive inside leftOver, there]
      rw [runs.probe_eq there, if_neg (Nat.lt_irrefl less), if_pos (by omega)] at isAbove
      contradiction
    next => contradiction
  · obtain ⟨before, after⟩ := missing_of_runsUp found runs missing there
    refine ⟨before, fun behind => ?_⟩
    by_cases inside : record * max step 1 + max step 1 ≤ items.length
    · exact after behind inside
    · have leads := (List.getElem?_eq_some_iff.mp there).1
      rw [Records.eq_div_of_left_over positive leads inside] at there
      exact above element there

/-- A sequence of three records, the second and the third with one key, and a sequence of a whole
record and of an incomplete one that leads with the key. -/
def sought : Heap .bare :=
  let heap := (((Heap.new {}).int 1).2.int 2).2
  let heap := (heap.arrayOf
    [.cell ⟨0, 0⟩, .null, .cell ⟨1, 0⟩, .null, .cell ⟨1, 0⟩, .cell ⟨0, 0⟩]).2
  (heap.arrayOf [.cell ⟨0, 0⟩, .null, .cell ⟨1, 0⟩]).2

/-- In three whole records both searches find the first of two with the key. -/
theorem sought_in_records :
    sought.binarySeek (.cell ⟨2, 0⟩) (.cell ⟨1, 0⟩) 2 = .found 2 ∧
      sought.linearSeek (.cell ⟨2, 0⟩) (.cell ⟨1, 0⟩) 2 = some 2 := by
  have found : sought.items? (.cell ⟨2, 0⟩) = some [.cell ⟨0, 0⟩, .null, .cell ⟨1, 0⟩, .null,
      .cell ⟨1, 0⟩, .cell ⟨0, 0⟩] := by
    decide +kernel
  have linear : sought.linearSeek (.cell ⟨2, 0⟩) (.cell ⟨1, 0⟩) 2 = some 2 := by decide +kernel
  have runs : Records.RunsUp
      [.cell ⟨0, 0⟩, .null, .cell ⟨1, 0⟩, .null, .cell ⟨1, 0⟩, .cell ⟨0, 0⟩] 2
      (sought.compare · (.cell ⟨1, 0⟩)) 1 2 0 := by
    decide +kernel
  obtain ⟨agree, -, -⟩ := seeks_agree_on_records found runs
  exact ⟨(agree 2).mpr ⟨linear, by decide⟩, linear⟩

/-- The linear search finds the key at the front of an incomplete record, where the binary search
does not look. -/
theorem sought_in_incomplete_record :
    sought.items? (.cell ⟨3, 0⟩) = some [.cell ⟨0, 0⟩, .null, .cell ⟨1, 0⟩] ∧
      Records.RunsUp [.cell ⟨0, 0⟩, .null, .cell ⟨1, 0⟩] 2 (sought.compare · (.cell ⟨1, 0⟩)) 1 1 0 ∧
      sought.linearSeek (.cell ⟨3, 0⟩) (.cell ⟨1, 0⟩) 2 = some 2 ∧
      sought.binarySeek (.cell ⟨3, 0⟩) (.cell ⟨1, 0⟩) 2 = .missing 2 := by
  decide +kernel

end Heap

end CountedHeap
