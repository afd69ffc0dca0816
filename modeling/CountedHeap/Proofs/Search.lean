import CountedHeap.Proofs.TableOrder
import Mathlib.Data.List.Pairwise

/-!
Contract: what the search of a bucket answers.

Owns:
- bisection finds the border of a property that holds up to a point and not beyond;
- in an ordered bucket the search answers the pair with the text, or the one place where it
  can be inserted.
-/

namespace CountedHeap

theorem compare_eq_lt_iff {left right : String} : Ord.compare left right = .lt ↔ left < right := by
  show compareOfLessAndEq left right = .lt ↔ left < right
  exact compareOfLessAndEq_eq_lt

theorem lt_of_not_lt_of_ne {left right : String} (notLess : ¬left < right)
    (different : left ≠ right) : right < left := by
  rw [← compare_eq_lt_iff, ← Std.OrientedCmp.gt_iff_lt]
  cases order : Ord.compare left right with
  | lt => exact absurd (compare_eq_lt_iff.mp order) notLess
  | eq => exact absurd (Std.compare_eq_iff_eq.mp order) different
  | gt => rfl

namespace Records

/-- A pair that was found is whole. -/
theorem lt_length_of_seek_found {α : Type} {items : List α} {probe : α → Ordering} {index : Nat}
    (sought : seek items 2 probe = .found index) : index + 1 < items.length := by
  simp only [seek] at sought
  split at sought
  next both =>
    obtain ⟨inside, -⟩ := Bool.and_eq_true_iff.mp both
    have inside := of_decide_eq_true inside
    have place := Seek.found.inj sought
    have step : max 2 1 = 2 := rfl
    rw [step] at inside place
    omega
  next => contradiction

/-- The place of a pair that is missing is in the list or at its end. -/
theorem le_length_of_seek_missing {α : Type} {items : List α} {probe : α → Ordering} {index : Nat}
    (sought : seek items 2 probe = .missing index) : index ≤ items.length := by
  simp only [seek] at sought
  split at sought
  next => contradiction
  next =>
    have place := Seek.missing.inj sought
    have bounds := firstNotBelow_bounds (leads items (max 2 1) probe .lt)
      (Nat.zero_le (items.length / max 2 1))
    have step : max 2 1 = 2 := rfl
    rw [step] at bounds place
    omega

/-- If `below` holds up to some number and not beyond, bisection answers that number. -/
theorem firstNotBelow_spec {below : Nat → Bool} {low high : Nat} (ordered : low ≤ high)
    (downward : ∀ {first second}, first ≤ second → second < high → below second = true →
      below first = true) :
    (∀ number, low ≤ number → number < firstNotBelow below low high → below number = true) ∧
      ∀ number, firstNotBelow below low high ≤ number → number < high →
        below number = false := by
  fun_induction firstNotBelow below low high with
  | case1 low high less middle isBelow inductionHypothesis =>
      obtain ⟨before, after⟩ := inductionHypothesis (by omega) downward
      refine ⟨fun number fromLow less => ?_, after⟩
      by_cases beyond : middle + 1 ≤ number
      · exact before number beyond less
      · exact downward (by omega) (by omega) isBelow
  | case2 low high less middle notBelow inductionHypothesis =>
      obtain ⟨before, after⟩ := inductionHypothesis (by omega)
        (fun order limit => downward order (by omega))
      refine ⟨before, fun number least limit => ?_⟩
      by_cases inside : number < middle
      · exact after number least inside
      · refine eq_false_of_ne_true fun isBelow => notBelow ?_
        exact downward (by omega) limit isBelow
  | case3 low high notLess =>
      exact ⟨fun number fromLow less => by omega, fun number least limit => by omega⟩

end Records

/-- The key of the pair at a place. -/
theorem getElem?_keysOf (items : List Value) (record : Nat) (inside : record < items.length / 2) :
    (keysOf items)[record]? = items[record * 2]? := by
  induction items using pairUp.induct generalizing record with
  | case1 key value rest inductionHypothesis =>
      cases record with
      | zero => rfl
      | succ record =>
          simp only [List.length_cons] at inside
          have tail := inductionHypothesis record (by omega)
          have place : (record + 1) * 2 = record * 2 + 1 + 1 := by omega
          rw [place, List.getElem?_cons_succ, List.getElem?_cons_succ, ← tail]
          rfl
  | case2 items notPair =>
      obtain rfl | ⟨item, rfl⟩ := eq_nil_or_singleton notPair <;> simp at inside

namespace Heap

variable {σ : Signature} {heap : Heap σ}

/-- A list of pairs cut before one of them. -/
theorem exists_cut {items : List Value} (even : items.length % 2 = 0) {record : Nat}
    (inside : record ≤ items.length / 2) :
    ∃ before after, items = before ++ after ∧ before.length = record * 2 ∧
      keysOf before = (keysOf items).take record ∧ keysOf after = (keysOf items).drop record := by
  refine ⟨items.take (record * 2), items.drop (record * 2), (List.take_append_drop _ _).symm,
    ?_, ?_⟩
  · rw [List.length_take]
    omega
  · have cut : keysOf items = keysOf (items.take (record * 2)) ++
        keysOf (items.drop (record * 2)) := by
      rw [← keysOf_append (by rw [List.length_take]; omega), List.take_append_drop]
    have length : (keysOf (items.take (record * 2))).length = record := by
      rw [length_keysOf, List.length_take]
      omega
    rw [cut]
    exact ⟨(List.take_left' length).symm, (List.drop_left' length).symm⟩

/-- Comparing the leading element of a pair is comparing its key. -/
theorem leads_iff {items : List Value} {probe : Value → Ordering} {expected : Ordering}
    {record : Nat} (inside : record < items.length / 2) :
    Records.leads items 2 probe expected record = true ↔
      ∃ key, (keysOf items)[record]? = some key ∧ probe key = expected := by
  rw [getElem?_keysOf items record inside, Records.leads, Option.any_eq_true]
  simp only [beq_iff_eq]

theorem exists_key {items : List Value} {record : Nat} (inside : record < items.length / 2) :
    ∃ key, (keysOf items)[record]? = some key := by
  rw [← length_keysOf] at inside
  exact ⟨_, List.getElem?_eq_getElem inside⟩

theorem lt_of_getElem?_keysOf {items : List Value} {record : Nat} {key : Value}
    (found : (keysOf items)[record]? = some key) : record < items.length / 2 := by
  rw [← length_keysOf]
  exact (List.getElem?_eq_some_iff.mp found).1

theorem OrderedBucket.text_lt {slots slot : Nat} {items : List Value}
    (ordered : heap.OrderedBucket slots slot items) {first second : Nat} {key key' : Value}
    (less : first < second) (found : (keysOf items)[first]? = some key)
    (found' : (keysOf items)[second]? = some key') : heap.text key < heap.text key' := by
  obtain ⟨inside, equal⟩ := List.getElem?_eq_some_iff.mp found
  obtain ⟨inside', equal'⟩ := List.getElem?_eq_some_iff.mp found'
  have pair := List.pairwise_iff_getElem.mp ordered.ascending first second
    (by simpa using inside) (by simpa using inside') less
  simpa [equal, equal'] using pair

/-- The number of pairs whose keys are below a text, if these come first. -/
structure Border (heap : Heap σ) (items : List Value) (text : String) (border : Nat) : Prop where
  bound : border ≤ items.length / 2
  below : ∀ {record key}, record < border → (keysOf items)[record]? = some key →
    heap.text key < text
  notBelow : ∀ {record key}, border ≤ record → (keysOf items)[record]? = some key →
    ¬heap.text key < text

/-- Bisection finds the border of an ordered bucket. -/
theorem OrderedBucket.border {slots slot : Nat} {items : List Value}
    (ordered : heap.OrderedBucket slots slot items) (text : String) :
    heap.Border items text (Records.firstNotBelow
      (Records.leads items 2 (fun key => Ord.compare (heap.text key) text) .lt) 0
        (items.length / 2)) := by
  have leads : ∀ {record key}, (keysOf items)[record]? = some key →
      (Records.leads items 2 (fun key => Ord.compare (heap.text key) text) .lt record = true ↔
        heap.text key < text) := by
    intro record key found
    rw [leads_iff (lt_of_getElem?_keysOf found), found]
    simp [compare_eq_lt_iff]
  obtain ⟨below, notBelow⟩ := Records.firstNotBelow_spec (Nat.zero_le (items.length / 2))
    (fun {first second} order limit isBelow => by
      rcases Nat.lt_or_eq_of_le order with less | rfl
      · obtain ⟨key, found⟩ := exists_key (lt_trans less limit)
        obtain ⟨key', found'⟩ := exists_key limit
        exact (leads found).mpr
          (String.lt_trans (ordered.text_lt less found found') ((leads found').mp isBelow))
      · exact isBelow)
  refine ⟨(Records.firstNotBelow_bounds _ (Nat.zero_le _)).2, fun {record key} less found =>
    (leads found).mp (below record (Nat.zero_le _) less), fun {record key} least found isLess => ?_⟩
  have isNot := notBelow record least (lt_of_getElem?_keysOf found)
  exact absurd ((leads found).mpr isLess) (by rw [isNot]; decide)

/-- A bucket cut before the pair at the border. -/
theorem exists_cut_pair {items : List Value} (even : items.length % 2 = 0) {record : Nat}
    {key : Value} (found : (keysOf items)[record]? = some key) :
    ∃ before value after, items = before ++ key :: value :: after ∧
      before.length = record * 2 := by
  have inside := lt_of_getElem?_keysOf found
  obtain ⟨before, after, whole, length, -, back⟩ := exists_cut even (Nat.le_of_lt inside)
  have head : (keysOf after).head? = some key := by rw [back, List.head?_drop, found]
  rcases after with _ | ⟨first, _ | ⟨value, rest⟩⟩
  · simp [keysOf, pairUp] at head
  · simp [keysOf, pairUp] at head
  · obtain rfl : first = key := by simpa [keysOf, pairUp] using head
    exact ⟨before, value, rest, whole, length⟩

/-- Beyond the border the texts are above, unless the one at the border is the text. -/
theorem OrderedBucket.lt_text {slots slot : Nat} {items : List Value} {text : String}
    (ordered : heap.OrderedBucket slots slot items) {border record : Nat} {key : Value}
    (isBorder : heap.Border items text border)
    (absent : ∀ {key}, (keysOf items)[border]? = some key → heap.text key ≠ text)
    (beyond : border ≤ record) (found : (keysOf items)[record]? = some key) :
    text < heap.text key := by
  obtain ⟨first, firstFound⟩ :=
    exists_key (lt_of_le_of_lt beyond (lt_of_getElem?_keysOf found))
  have above := lt_of_not_lt_of_ne (isBorder.notBelow le_rfl firstFound) (absent firstFound)
  rcases Nat.lt_or_eq_of_le beyond with less | rfl
  · exact String.lt_trans above (ordered.text_lt less firstFound found)
  · rw [firstFound] at found
    exact Option.some.inj found ▸ above

/-- What the search of an ordered bucket answers. -/
theorem OrderedBucket.seekKey {slots slot : Nat} {items : List Value}
    (ordered : heap.OrderedBucket slots slot items) (text : String) :
    (∃ before key value after, heap.seekKey items text = .found before.length ∧
        items = before ++ key :: value :: after ∧ before.length % 2 = 0 ∧ heap.text key = text) ∨
      ∃ before after, heap.seekKey items text = .missing before.length ∧
        items = before ++ after ∧ before.length % 2 = 0 ∧
        (∀ key ∈ keysOf before, heap.text key < text) ∧
        ∀ key ∈ keysOf after, text < heap.text key := by
  have isBorder := ordered.border text
  simp only [Heap.seekKey, Records.seek, show max 2 1 = 2 from rfl]
  revert isBorder
  generalize Records.firstNotBelow _ 0 (items.length / 2) = border
  intro isBorder
  split
  next both =>
    obtain ⟨less, leading⟩ := Bool.and_eq_true_iff.mp both
    obtain ⟨key, found, equal⟩ := (leads_iff (of_decide_eq_true less)).mp leading
    obtain ⟨before, value, after, whole, length⟩ := exists_cut_pair ordered.even found
    exact .inl ⟨before, key, value, after, by rw [length], whole, by omega,
      Std.compare_eq_iff_eq.mp equal⟩
  next neither =>
    obtain ⟨before, after, whole, length, front, back⟩ := exists_cut ordered.even isBorder.bound
    have absent : ∀ {key}, (keysOf items)[border]? = some key → heap.text key ≠ text := by
      intro key found equal
      have inside := lt_of_getElem?_keysOf found
      refine neither (Bool.and_eq_true_iff.mpr ⟨decide_eq_true inside, ?_⟩)
      exact (leads_iff inside).mpr ⟨key, found, Std.compare_eq_iff_eq.mpr equal⟩
    refine .inr ⟨before, after, by rw [length], whole, by omega, fun key member => ?_,
      fun key member => ?_⟩
    · rw [front] at member
      obtain ⟨record, found⟩ := List.mem_iff_getElem?.mp member
      rw [List.getElem?_take] at found
      split at found
      next less => exact isBorder.below less found
      next => contradiction
    · rw [back] at member
      obtain ⟨distance, found⟩ := List.mem_iff_getElem?.mp member
      rw [List.getElem?_drop] at found
      exact ordered.lt_text isBorder absent (Nat.le_add_right _ _) found

end Heap

end CountedHeap
