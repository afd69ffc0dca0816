import CountedHeap.Proofs.Merging
import CountedHeap.Proofs.Scripts
import CountedHeap.Proofs.Search
import CountedHeap.Sequence.Search
import Mathlib.Data.Nat.Find

/-!
Contract: a sorted array of strings and integers is searched.

Integers compare as numbers, and all else among these compares as texts.  So a string between the
texts of two integers can be above the greater and below the smaller of them, and then no order of
the three is a sorted one.  Where no string does this the comparison orders the elements, the sort
by it sorts, and the binary search finds what the linear search finds.

Owns:
- the two searches, in a list that is cut at the first match;
- the comparison of strings and integers, and when it orders them;
- sorting and then searching.
-/

namespace CountedHeap

namespace Records

variable {α : Type} {items : List α} {step : Nat} {probe : α → Ordering}

/-- Bisection finds the record that matches if the records before it are below the key and those
from it on are not. -/
theorem seek_eq_found (record : Nat) (inside : record < items.length / max step 1)
    (matching : leads items (max step 1) probe .eq record = true)
    (below : ∀ other, other < record → leads items (max step 1) probe .lt other = true)
    (notBelow : ∀ other, record ≤ other → leads items (max step 1) probe .lt other = false) :
    seek items step probe = .found (record * max step 1) := by
  have downward : ∀ {first second}, first ≤ second → second < items.length / max step 1 →
      leads items (max step 1) probe .lt second = true →
        leads items (max step 1) probe .lt first = true := by
    intro first second order _ isBelow
    by_cases beyond : record ≤ second
    · rw [notBelow second beyond] at isBelow
      contradiction
    · exact below first (by omega)
  have border : firstNotBelow (leads items (max step 1) probe .lt) 0
      (items.length / max step 1) = record := by
    obtain ⟨before, after⟩ := firstNotBelow_spec (Nat.zero_le _) downward
    rcases Nat.lt_trichotomy (firstNotBelow (leads items (max step 1) probe .lt) 0
        (items.length / max step 1)) record with early | same | late
    · have isBelow := below _ early
      rw [after _ le_rfl (Nat.lt_trans early inside)] at isBelow
      contradiction
    · exact same
    · have isBelow := before record (Nat.zero_le _) late
      rw [notBelow record le_rfl] at isBelow
      contradiction
  unfold seek
  simp only [border, inside, matching, decide_true, Bool.and_self, if_true]

/-- What bisection finds matches, whatever the list. -/
theorem exists_of_seek {index : Nat} (found : seek items step probe = .found index) :
    ∃ item, items[index]? = some item ∧ probe item = .eq := by
  unfold seek at found
  dsimp only at found
  split at found
  next both =>
    obtain rfl := Seek.found.inj found
    obtain ⟨item, there, equal⟩ :=
      Option.any_eq_true _ _ |>.mp (Bool.and_eq_true_iff.mp both).2
    exact ⟨item, there, beq_iff_eq.mp equal⟩
  next => contradiction

/-! ## Lists cut at the first match -/

/-- A list cut at its first match: the items before it are below the key, those after it are
not. -/
structure CutAt (items : List α) (probe : α → Ordering) (front : List α) (item : α)
    (back : List α) : Prop where
  whole : items = front ++ item :: back
  matching : probe item = .eq
  below : ∀ other ∈ front, probe other = .lt
  notBelow : ∀ other ∈ back, probe other ≠ .lt

variable {front back : List α} {item : α}

theorem CutAt.getElem? (cut : CutAt items probe front item back) :
    items[front.length]? = some item := by
  rw [cut.whole, List.getElem?_append_right le_rfl, Nat.sub_self, List.getElem?_cons_zero]

/-- The binary search answers the cut. -/
theorem CutAt.seek (cut : CutAt items probe front item back) :
    seek items 1 probe = .found front.length := by
  have place : ∀ record, items[record * max 1 1]? = items[record]? := fun record => by
    rw [Nat.max_self, Nat.mul_one]
  have inside := (List.getElem?_eq_some_iff.mp cut.getElem?).1
  rw [seek_eq_found front.length, Nat.max_self, Nat.mul_one]
  · rwa [Nat.max_self, Nat.div_one]
  · rw [leads, place, cut.getElem?, Option.any_some, cut.matching]
    rfl
  · intro other before
    rw [leads, place, cut.whole, List.getElem?_append_left before,
      List.getElem?_eq_getElem before, Option.any_some, cut.below _ (List.getElem_mem before)]
    rfl
  · intro other behind
    rw [leads, place, cut.whole, List.getElem?_append_right behind]
    cases distance : other - front.length with
    | zero =>
        rw [List.getElem?_cons_zero, Option.any_some, cut.matching]
        rfl
    | succ number =>
        rw [List.getElem?_cons_succ]
        cases found : back[number]? with
        | none => rfl
        | some behind =>
            rw [Option.any_some]
            exact beq_eq_false_iff_ne.mpr (cut.notBelow behind (List.mem_of_getElem? found))

/-- A list in order is cut at the first match of any of its items. -/
theorem exists_cutAt {cmp : α → α → Ordering} {key : α}
    (orders : Orders (· ∈ items) fun left right => cmp left right == .lt)
    (ascending : Ascending (fun left right => cmp left right == .lt) items)
    (oriented : ∀ {left right}, left ∈ items → right ∈ items →
      cmp left right = (cmp right left).swap)
    (member : key ∈ items) :
    ∃ front item back, CutAt items (cmp · key) front item back := by
  have reflexive : cmp key key = .eq := by
    have own := oriented member member
    cases order : cmp key key with
    | eq => rfl
    | lt | gt => exact absurd (order ▸ own) (by decide)
  obtain ⟨item, found⟩ : ∃ item, items.find? (cmp · key == .eq) = some item :=
    Option.isSome_iff_exists.mp (List.find?_isSome.mpr ⟨key, member, beq_iff_eq.mpr reflexive⟩)
  obtain ⟨isMatch, front, back, whole, unmatched⟩ := List.find?_eq_some_iff_append.mp found
  have matching : cmp item key = .eq := beq_iff_eq.mp isMatch
  have inItems : ∀ {other}, other ∈ front ++ item :: back → other ∈ items := fun inside =>
    whole ▸ inside
  refine ⟨front, item, back, whole, matching, fun other inFront => ?_, fun other inBack => ?_⟩
  · -- The key itself is not in the front, so it is behind this item.
    have isOther := inItems (List.mem_append_left _ inFront)
    have notEqual : cmp other key ≠ .eq := fun equal => by
      have fails := unmatched other inFront
      rw [equal] at fails
      contradiction
    have keyBehind : key ∈ item :: back := by
      rcases List.mem_append.mp (whole ▸ member) with inFront' | behind
      · have fails := unmatched key inFront'
        rw [reflexive] at fails
        contradiction
      · exact behind
    have notAfter : (cmp key other == .lt) = false :=
      (List.pairwise_append.mp (whole ▸ ascending)).2.2 other inFront key keyBehind
    have swapped := oriented isOther member
    cases order : cmp key other with
    | lt => rw [order] at notAfter; contradiction
    | eq => exact absurd (by rw [swapped, order]; rfl) notEqual
    | gt => rw [swapped, order]; rfl
  · -- What is behind the match is not below it, and the match is not below the key.
    have isOther := inItems (List.mem_append_right _ (.tail _ inBack))
    have isItem := inItems (List.mem_append_right _ List.mem_cons_self)
    have behind : (cmp other item == .lt) = false :=
      (List.pairwise_cons.mp (List.pairwise_append.mp (whole ▸ ascending)).2.1).1 other inBack
    have level : (cmp item key == .lt) = false := by rw [matching]; rfl
    exact beq_eq_false_iff_ne.mp (orders.trans member isItem isOther level behind)

end Records

namespace Heap

variable {σ : Signature} {heap heap' : Heap σ} {items : List Value}

/-! ## Strings and integers -/

/-- A string or an integer. -/
def Plain (heap : Heap σ) (value : Value) : Prop :=
  heap.kind value = .text ∨ heap.kind value = .int

instance (heap : Heap σ) (value : Value) : Decidable (heap.Plain value) :=
  inferInstanceAs (Decidable (_ ∨ _))

theorem compare_of_eq {left right : Value} (same : left = right) :
    heap.compare left right = .eq := by
  rw [Heap.compare, compareWithin.eq_def]
  split
  simp [same]

/-- Two integers compare as numbers. -/
theorem compare_of_ints {left right : Value} (leftInt : heap.kind left = .int)
    (rightInt : heap.kind right = .int) :
    heap.compare left right = Ord.compare (heap.asInt left) (heap.asInt right) := by
  by_cases same : left = right
  · rw [compare_of_eq same, same]
    exact Std.ReflCmp.compare_self.symm
  · simp [Heap.compare, compareLevels, compareWithin, same, leftInt, rightInt]

/-- A string and another string or integer compare as texts. -/
theorem compare_of_texts {left right : Value} (leftPlain : heap.Plain left)
    (rightPlain : heap.Plain right) (notInts : heap.kind left = .text ∨ heap.kind right = .text) :
    heap.compare left right = Ord.compare (heap.text left) (heap.text right) := by
  by_cases same : left = right
  · rw [compare_of_eq same, same]
    exact Std.ReflCmp.compare_self.symm
  · rcases leftPlain with leftKind | leftKind <;> rcases rightPlain with rightKind | rightKind <;>
      simp_all [Heap.compare, compareLevels, compareWithin, Kind.isNumeric, Kind.isMulti]

theorem compare_swap_of_plain {left right : Value} (leftPlain : heap.Plain left)
    (rightPlain : heap.Plain right) :
    heap.compare left right = (heap.compare right left).swap := by
  by_cases texts : heap.kind left = .text ∨ heap.kind right = .text
  · rw [compare_of_texts leftPlain rightPlain texts,
      compare_of_texts rightPlain leftPlain texts.symm]
    exact Std.OrientedCmp.eq_swap
  · obtain ⟨leftText, rightText⟩ := not_or.mp texts
    have leftInt := leftPlain.resolve_left leftText
    have rightInt := rightPlain.resolve_left rightText
    rw [compare_of_ints leftInt rightInt, compare_of_ints rightInt leftInt]
    exact Std.OrientedCmp.eq_swap

/-- Whether one value comes before another in the order of values. -/
def before (heap : Heap σ) (left right : Value) : Bool :=
  heap.compare left right == .lt

theorem before_eq_false_of_ints {left right : Value} (leftInt : heap.kind left = .int)
    (rightInt : heap.kind right = .int) :
    heap.before right left = false ↔ heap.asInt left ≤ heap.asInt right := by
  rw [before, compare_of_ints rightInt leftInt, beq_eq_false_iff_ne, ← Int64.not_lt]
  exact not_congr compareOfLessAndEq_eq_lt

theorem before_eq_false_of_texts {left right : Value} (leftPlain : heap.Plain left)
    (rightPlain : heap.Plain right) (notInts : heap.kind left = .text ∨ heap.kind right = .text) :
    heap.before right left = false ↔ heap.text left ≤ heap.text right := by
  rw [before, compare_of_texts rightPlain leftPlain notInts.symm, beq_eq_false_iff_ne, Ne,
    compare_eq_lt_iff, String.not_lt]

/-- No string has its text between the texts of two integers, the ends included, where the greater
integer has the lower text. -/
def Untangled (heap : Heap σ) (items : List Value) : Prop :=
  ∀ low ∈ items, ∀ string ∈ items, ∀ high ∈ items,
    heap.kind low = .int → heap.kind string = .text → heap.kind high = .int →
      heap.asInt low < heap.asInt high →
        ¬(heap.text high ≤ heap.text string ∧ heap.text string ≤ heap.text low)

theorem text_eq_of_asInt_eq {left right : Value} (leftInt : heap.kind left = .int)
    (rightInt : heap.kind right = .int) (same : heap.asInt left = heap.asInt right) :
    heap.text left = heap.text right := by
  rw [text_eq_fixedText (by rw [leftInt]; rfl), text_eq_fixedText (by rw [rightInt]; rfl)]
  unfold kind at leftInt rightInt
  unfold asInt at same
  cases leftContent : heap.payload left <;> cases rightContent : heap.payload right <;>
    simp_all [Payload.kind, Payload.fixedText]

/-- A string that is not above one of two integers in order is not between their texts. -/
theorem Untangled.text_le {low string high : Value} (untangled : heap.Untangled items)
    (isLow : low ∈ items) (isString : string ∈ items) (isHigh : high ∈ items)
    (lowInt : heap.kind low = .int) (stringText : heap.kind string = .text)
    (highInt : heap.kind high = .int) (ordered : heap.asInt low ≤ heap.asInt high) :
    (heap.text high ≤ heap.text string → heap.text low ≤ heap.text string) ∧
      (heap.text string ≤ heap.text low → heap.text string ≤ heap.text high) := by
  rcases Int64.lt_or_eq_of_le ordered with less | same
  · have apart := untangled low isLow string isString high isHigh lowInt stringText highInt less
    refine ⟨fun above => ?_, fun below => ?_⟩
    · exact (String.le_total _ _).resolve_right fun below => apart ⟨above, below⟩
    · exact (String.le_total _ _).resolve_right fun above => apart ⟨above, below⟩
  · rw [text_eq_of_asInt_eq lowInt highInt same]
    exact ⟨id, id⟩

/-- The comparison orders strings and integers if and only if they are untangled. -/
theorem orders_iff_untangled (plain : ∀ item ∈ items, heap.Plain item) :
    Records.Orders (· ∈ items) heap.before ↔ heap.Untangled items := by
  constructor
  · intro orders low isLow string isString high isHigh lowInt stringText highInt less tangle
    have fromHigh := (before_eq_false_of_texts (plain high isHigh) (plain string isString)
      (.inr stringText)).mpr tangle.1
    have toLow := (before_eq_false_of_texts (plain string isString) (plain low isLow)
      (.inl stringText)).mpr tangle.2
    have around := (before_eq_false_of_ints highInt lowInt).mp
      (orders.trans isHigh isString isLow fromHigh toLow)
    exact Int64.not_le.mpr less around
  · intro untangled
    refine ⟨fun {left right} isLeft isRight less => ?_,
      fun {first second third} isFirst isSecond isThird notBefore notBefore' => ?_⟩
    · rw [before, beq_iff_eq] at less
      rw [before, compare_swap_of_plain (plain right isRight) (plain left isLeft), less]
      rfl
    · have texts := fun {left right : Value} (isLeft : left ∈ items) (isRight : right ∈ items) =>
        before_eq_false_of_texts (plain left isLeft) (plain right isRight)
      rcases plain second isSecond with secondText | secondInt
      · -- Both comparisons are of texts.
        rw [texts isFirst isSecond (.inr secondText)] at notBefore
        rw [texts isSecond isThird (.inl secondText)] at notBefore'
        by_cases oneText : heap.kind first = .text ∨ heap.kind third = .text
        · rw [texts isFirst isThird oneText]
          exact String.le_trans notBefore notBefore'
        · obtain ⟨firstNot, thirdNot⟩ := not_or.mp oneText
          have firstInt := (plain first isFirst).resolve_left firstNot
          have thirdInt := (plain third isThird).resolve_left thirdNot
          rw [before_eq_false_of_ints firstInt thirdInt, ← Int64.not_lt]
          exact fun less => untangled third isThird second isSecond first isFirst thirdInt
            secondText firstInt less ⟨notBefore, notBefore'⟩
      · rcases plain first isFirst with firstText | firstInt <;>
          rcases plain third isThird with thirdText | thirdInt
        · rw [texts isFirst isSecond (.inl firstText)] at notBefore
          rw [texts isSecond isThird (.inr thirdText)] at notBefore'
          rw [texts isFirst isThird (.inl firstText)]
          exact String.le_trans notBefore notBefore'
        · rw [texts isFirst isSecond (.inl firstText)] at notBefore
          rw [before_eq_false_of_ints secondInt thirdInt] at notBefore'
          rw [texts isFirst isThird (.inl firstText)]
          exact (untangled.text_le isSecond isFirst isThird secondInt firstText thirdInt
            notBefore').2 notBefore
        · rw [before_eq_false_of_ints firstInt secondInt] at notBefore
          rw [texts isSecond isThird (.inr thirdText)] at notBefore'
          rw [texts isFirst isThird (.inr thirdText)]
          exact (untangled.text_le isFirst isThird isSecond firstInt thirdText secondInt
            notBefore).1 notBefore'
        · rw [before_eq_false_of_ints firstInt secondInt] at notBefore
          rw [before_eq_false_of_ints secondInt thirdInt] at notBefore'
          rw [before_eq_false_of_ints firstInt thirdInt]
          exact Int64.le_trans notBefore notBefore'

/-! ## Sorting strings and integers -/

/-- Another heap with the same strings and integers. -/
def SamePlain (heap heap' : Heap σ) : Prop :=
  ∀ value, heap.Plain value → heap'.payload value = heap.payload value

/-- What a value holds does not change a string or an integer. -/
theorem samePlain_setChildren (heap : Heap σ) (sequence : Value) (children : List Value) :
    heap.SamePlain (heap.setChildren sequence children) := by
  intro value plain
  rw [setChildren_eq_setPayload, payload_setPayload]
  split
  next here =>
    obtain ⟨rfl, -⟩ := here
    unfold Plain kind at plain
    cases content : heap.payload value <;> simp_all [Payload.kind, Payload.withChildren]
  next => rfl

theorem SamePlain.plain (same : heap.SamePlain heap') {value : Value} (plain : heap.Plain value) :
    heap'.Plain value := by
  unfold Plain kind at plain ⊢
  rwa [same value plain]

theorem SamePlain.trans {middle : Heap σ} (first : heap.SamePlain middle)
    (second : middle.SamePlain heap') : heap.SamePlain heap' :=
  fun value plain => (second value (first.plain plain)).trans (first value plain)

theorem SamePlain.compare (same : heap.SamePlain heap') {left right : Value}
    (leftPlain : heap.Plain left) (rightPlain : heap.Plain right) :
    heap'.compare left right = heap.compare left right := by
  have kinds : ∀ {value}, heap.Plain value → heap'.kind value = heap.kind value :=
    fun {value} plain => by rw [kind, same value plain, kind]
  have numbers : ∀ {value}, heap.Plain value → heap'.asInt value = heap.asInt value :=
    fun {value} plain => by rw [asInt, same value plain, asInt]
  have words : ∀ {value}, heap.Plain value → heap'.text value = heap.text value := by
    intro value plain
    apply text_congr _ (.inl (same value plain))
    rcases plain with isText | isInt
    · rw [isText]; rfl
    · rw [isInt]; rfl
  by_cases texts : heap.kind left = .text ∨ heap.kind right = .text
  · rw [compare_of_texts leftPlain rightPlain texts, compare_of_texts (same.plain leftPlain)
      (same.plain rightPlain) (by rwa [kinds leftPlain, kinds rightPlain]), words leftPlain,
      words rightPlain]
  · obtain ⟨leftText, rightText⟩ := not_or.mp texts
    have leftInt := leftPlain.resolve_left leftText
    have rightInt := rightPlain.resolve_left rightText
    rw [compare_of_ints leftInt rightInt, compare_of_ints (by rwa [kinds leftPlain])
      (by rwa [kinds rightPlain]), numbers leftPlain, numbers rightPlain]

end Heap

/-- Records of one item. -/
theorem Records.cutRecords_one {α : Type} (items : List α) :
    Records.cutRecords 1 items.length items = (items.map ([·]), []) := by
  induction items with
  | nil => rfl
  | cons item rest inductionHypothesis =>
      rw [List.length_cons, Records.cutRecords, List.drop_succ_cons, List.drop_zero,
        inductionHypothesis]
      rfl

/-- What is compared as items that are in order is in order. -/
theorem Records.Orders.comap {α β : Type} {good : α → Prop} {good' : β → Prop}
    {precedes : α → α → Bool} {precedes' : β → β → Bool} (orders : Records.Orders good precedes)
    (read : β → α) (covered : ∀ {item}, good' item → good (read item))
    (same : ∀ {left right}, good' left → good' right →
      precedes' left right = precedes (read left) (read right)) :
    Records.Orders good' precedes' where
  asymm goodLeft goodRight less := by
    rw [same goodLeft goodRight] at less
    rw [same goodRight goodLeft]
    exact orders.asymm (covered goodLeft) (covered goodRight) less
  trans goodFirst goodSecond goodThird notBefore notBefore' := by
    rw [same goodSecond goodFirst] at notBefore
    rw [same goodThird goodSecond] at notBefore'
    rw [same goodThird goodFirst]
    exact orders.trans (covered goodFirst) (covered goodSecond) (covered goodThird) notBefore
      notBefore'

theorem Records.eq_map_flatten {α : Type} {records : List (List α)} :
    (∀ record ∈ records, ∃ item, record = [item]) → records = records.flatten.map ([·]) := by
  induction records with
  | nil => exact fun _ => rfl
  | cons record rest inductionHypothesis =>
      intro single
      obtain ⟨⟨item, rfl⟩, singles⟩ := List.forall_mem_cons.mp single
      rw [List.flatten_cons, List.singleton_append, List.map_cons, ← inductionHypothesis singles]

namespace Heap

variable {σ : Signature} {heap heap' : Heap σ} {items sorted : List Value} {sequence : Value}

theorem SamePlain.before (same : heap.SamePlain heap') {left right : Value}
    (leftPlain : heap.Plain left) (rightPlain : heap.Plain right) :
    heap'.before left right = heap.before left right := by
  rw [Heap.before, same.compare leftPlain rightPlain, Heap.before]

/-- A sort of single items by the order of values succeeds.  It leaves the items in another order
and changes no string or integer; where the comparison orders the items, they are in order. -/
theorem exists_sorted (found : heap.items? sequence = some items)
    (plain : ∀ item ∈ items, heap.Plain item) (call : Caller σ) :
    ∃ heap' sorted, sortItems call sequence 1 none heap = .ok (.ok (), heap') ∧
      heap'.items? sequence = some sorted ∧ sorted.Perm items ∧ heap.SamePlain heap' ∧
      (heap.Untangled items → Records.Ascending heap.before sorted) := by
  have detached := heap.samePlain_setChildren sequence []
  have empty : (heap.setChildren sequence []).items? sequence = some [] :=
    items?_setChildren found
  have sorting := sortItems_in_order found call 1
  simp only [Nat.max_self, Nat.div_one, Records.cutRecords_one, List.append_nil] at sorting
  obtain ⟨records, ran⟩ : ∃ records : List (List Value), Records.mergeSortM (m := Id)
      (heap.setChildren sequence []).leadsBefore (items.map ([·])) = records := ⟨_, rfl⟩
  rw [ran] at sorting
  have perm : List.Perm records (items.map ([·])) := ran ▸ Records.mergeSortM_perm _ _
  have singles : ∀ record ∈ records, ∃ item ∈ items, record = [item] := by
    intro record member
    obtain ⟨item, isItem, rfl⟩ := List.mem_map.mp (perm.subset member)
    exact ⟨item, isItem, rfl⟩
  have rows : records = records.flatten.map ([·]) :=
    Records.eq_map_flatten fun record member => by
      obtain ⟨item, -, single⟩ := singles record member
      exact ⟨item, single⟩
  have flat : records.flatten.Perm items := by
    have flattened := perm.flatten
    rwa [← List.flatMap_def, List.flatMap_singleton'] at flattened
  refine ⟨_, records.flatten, sorting, ?_, flat, ?_, fun untangled => ?_⟩
  · rw [restoreItems, empty]
    exact items?_setChildren empty
  · rw [restoreItems, empty]
    exact detached.trans (samePlain_setChildren _ _ _)
  · have orders : Records.Orders (fun record => ∃ item ∈ items, record = [item])
        (heap.setChildren sequence []).leadsBefore := by
      apply ((orders_iff_untangled plain).mpr untangled).comap (·.headD .null)
      · rintro _ ⟨item, isItem, rfl⟩
        exact isItem
      · rintro _ _ ⟨left, isLeft, rfl⟩ ⟨right, isRight, rfl⟩
        exact detached.before (plain left isLeft) (plain right isRight)
    have ascending := Records.ascending_mergeSortM orders fun record member => by
      obtain ⟨item, isItem, rfl⟩ := List.mem_map.mp member
      exact ⟨item, isItem, rfl⟩
    rw [ran, rows, Records.Ascending, List.pairwise_map] at ascending
    refine ascending.imp_of_mem fun isLeft isRight notBefore => ?_
    exact (detached.before (plain _ (flat.subset isRight)) (plain _ (flat.subset isLeft))) ▸
      notBefore

/-! ## Sorting and then searching -/

/-- The linear search for single items answers the first one that is equal to the key. -/
theorem linearSeek_eq_some_iff (found : heap.items? sequence = some items) {key : Value}
    {index : Nat} :
    heap.linearSeek sequence key 1 = some index ↔
      (∃ item, items[index]? = some item ∧ heap.compare item key = .eq) ∧
        ∀ other, other < index → ∀ item, items[other]? = some item →
          heap.compare item key ≠ .eq := by
  have positions : (List.range ((items.length + max 1 1 - 1) / max 1 1)).map (· * max 1 1) =
      List.range items.length := by
    simp
  rw [linearSeek, found]
  dsimp only
  rw [positions, List.find?_range_eq_some]
  have matched : ∀ place : Nat, (items[place]?.any fun element => heap.compare element key == .eq) =
      true ↔ ∃ item, items[place]? = some item ∧ heap.compare item key = .eq := fun place => by
    rw [Option.any_eq_true]
    simp only [beq_iff_eq]
  simp only [Bool.not_eq_true', Bool.eq_false_iff, Ne, matched, List.mem_range]
  constructor
  · rintro ⟨first, -, unmatched⟩
    exact ⟨first, fun other before item there equal => unmatched other before ⟨item, there, equal⟩⟩
  · rintro ⟨⟨item, there, equal⟩, unmatched⟩
    refine ⟨⟨item, there, equal⟩, (List.getElem?_eq_some_iff.mp there).1, ?_⟩
    rintro other before ⟨earlier, there', equal'⟩
    exact unmatched other before earlier there' equal'

theorem linearSeek_of_cutAt (found : heap.items? sequence = some items) {key item : Value}
    {front back : List Value}
    (cut : Records.CutAt items (heap.compare · key) front item back) :
    heap.linearSeek sequence key 1 = some front.length := by
  refine (linearSeek_eq_some_iff found).mpr ⟨⟨item, cut.getElem?, cut.matching⟩, ?_⟩
  intro other before item there
  rw [cut.whole, List.getElem?_append_left before] at there
  rw [cut.below item (List.mem_of_getElem? there)]
  decide

/-- The linear search finds every item that is equal to itself. -/
theorem exists_linearSeek (found : heap.items? sequence = some items) {key : Value}
    (member : key ∈ items) :
    ∃ index item, heap.linearSeek sequence key 1 = some index ∧ items[index]? = some item ∧
      heap.compare item key = .eq := by
  classical
  have occurs : ∃ index : Nat, ∃ item, items[index]? = some item ∧ heap.compare item key = .eq := by
    obtain ⟨index, there⟩ := List.getElem?_of_mem member
    exact ⟨index, key, there, compare_of_eq rfl⟩
  obtain ⟨item, there, equal⟩ := Nat.find_spec occurs
  refine ⟨Nat.find occurs, item, (linearSeek_eq_some_iff found).mpr ⟨⟨item, there, equal⟩, ?_⟩,
    there, equal⟩
  exact fun other before earlier there' equal' =>
    Nat.find_min occurs before ⟨earlier, there', equal'⟩

/-- An array of strings and integers is sorted by the order of values and then searched for one of
its elements.  The sort succeeds and leaves the elements in some order.  The linear search finds an
equal element, and so does the binary search if it finds any.  Where no string is caught between
two integers, the binary search finds the element that the linear search finds. -/
theorem seeks_agree_after_sort (found : heap.items? sequence = some items)
    (plain : ∀ item ∈ items, heap.Plain item) (call : Caller σ) :
    ∃ heap' sorted, sortItems call sequence 1 none heap = .ok (.ok (), heap') ∧
      heap'.items? sequence = some sorted ∧ sorted.Perm items ∧
      (∀ key ∈ sorted, ∃ index item, heap'.linearSeek sequence key 1 = some index ∧
        sorted[index]? = some item ∧ heap'.compare item key = .eq) ∧
      (∀ key index, heap'.binarySeek sequence key 1 = .found index →
        ∃ item, sorted[index]? = some item ∧ heap'.compare item key = .eq) ∧
      (heap.Untangled items → ∀ key ∈ sorted,
        ∃ index item, heap'.binarySeek sequence key 1 = .found index ∧
          heap'.linearSeek sequence key 1 = some index ∧ sorted[index]? = some item ∧
          heap'.compare item key = .eq) := by
  obtain ⟨heap', sorted, sorting, found', perm, same, inOrder⟩ := exists_sorted found plain call
  refine ⟨heap', sorted, sorting, found', perm, fun key member => exists_linearSeek found' member,
    fun key index answered => ?_, fun untangled key member => ?_⟩
  · rw [binarySeek, found'] at answered
    exact Records.exists_of_seek answered
  · have plain' : ∀ {item}, item ∈ sorted → heap.Plain item := fun isItem =>
      plain _ (perm.subset isItem)
    have ascending : Records.Ascending heap'.before sorted :=
      (inOrder untangled).imp_of_mem fun isLeft isRight notBefore => by
        rwa [same.before (plain' isRight) (plain' isLeft)]
    have orders : Records.Orders (· ∈ sorted) heap'.before :=
      ((orders_iff_untangled plain).mpr untangled).comap id (fun isItem => perm.subset isItem)
        fun isLeft isRight => same.before (plain' isLeft) (plain' isRight)
    obtain ⟨front, item, back, cut⟩ := Records.exists_cutAt orders ascending
      (fun isLeft isRight => compare_swap_of_plain (same.plain (plain' isLeft))
        (same.plain (plain' isRight))) member
    refine ⟨front.length, item, ?_, linearSeek_of_cutAt found' cut, cut.getElem?, cut.matching⟩
    rw [binarySeek, found']
    exact cut.seek

/-! ## Arrays of three and of four -/

/-- A string between two integers, by its text, in an array. -/
def caught : Heap .bare :=
  let heap := ((((Heap.new {}).string "10").2.int 10).2.int 9).2
  (heap.arrayOf [.cell ⟨1, 0⟩, .cell ⟨0, 0⟩, .cell ⟨2, 0⟩]).2

/-- The caller of natives that are not called. -/
def idle : Caller .bare :=
  fun _ _ => pure .null

/-- The array of 10, "10" and 9 has no sorted order.  The sort leaves 9, 10 and "10", where 10 and
"10" are equal, the linear search for "10" finds 10, and the binary search for it stops at 9. -/
theorem seeks_disagree_on_caught :
    caught.items? (.cell ⟨3, 0⟩) = some [.cell ⟨1, 0⟩, .cell ⟨0, 0⟩, .cell ⟨2, 0⟩] ∧
      (∀ item ∈ ([.cell ⟨1, 0⟩, .cell ⟨0, 0⟩, .cell ⟨2, 0⟩] : List Value), caught.Plain item) ∧
      ((sortItems idle (.cell ⟨3, 0⟩) 1 none caught).toOption.map fun answer =>
        (answer.1.isOk, answer.2.items? (.cell ⟨3, 0⟩),
          answer.2.binarySeek (.cell ⟨3, 0⟩) (.cell ⟨0, 0⟩) 1,
          answer.2.linearSeek (.cell ⟨3, 0⟩) (.cell ⟨0, 0⟩) 1)) =
        some (true, some [.cell ⟨2, 0⟩, .cell ⟨1, 0⟩, .cell ⟨0, 0⟩], .missing 0, some 1) := by
  decide +kernel

/-- Strings and integers in an array, two of them equal, and no string between the texts of 9 and
10. -/
def mixed : Heap .bare :=
  let heap := ((((((Heap.new {}).int 10).2.string "b").2.int 9).2.string "05").2.int 9).2
  (heap.arrayOf [.cell ⟨0, 0⟩, .cell ⟨1, 0⟩, .cell ⟨2, 0⟩, .cell ⟨3, 0⟩, .cell ⟨4, 0⟩]).2

theorem untangled_mixed :
    mixed.Untangled [.cell ⟨0, 0⟩, .cell ⟨1, 0⟩, .cell ⟨2, 0⟩, .cell ⟨3, 0⟩, .cell ⟨4, 0⟩] := by
  simp only [Untangled, ← String.not_lt]
  decide +kernel

/-- The sort leaves "05", 9, 9, 10 and "b", and both searches find each of them. -/
theorem seeks_agree_on_mixed : ∃ heap' sorted,
    sortItems idle (.cell ⟨5, 0⟩) 1 none mixed = .ok (.ok (), heap') ∧
      heap'.items? (.cell ⟨5, 0⟩) = some sorted ∧
      ∀ key ∈ sorted, ∃ index item, heap'.binarySeek (.cell ⟨5, 0⟩) key 1 = .found index ∧
        heap'.linearSeek (.cell ⟨5, 0⟩) key 1 = some index ∧ sorted[index]? = some item ∧
        heap'.compare item key = .eq := by
  have found : mixed.items? (.cell ⟨5, 0⟩) =
      some [.cell ⟨0, 0⟩, .cell ⟨1, 0⟩, .cell ⟨2, 0⟩, .cell ⟨3, 0⟩, .cell ⟨4, 0⟩] := by
    decide +kernel
  obtain ⟨heap', sorted, sorting, found', -, -, -, agree⟩ :=
    seeks_agree_after_sort found (by decide +kernel) idle
  exact ⟨heap', sorted, sorting, found', agree untangled_mixed⟩

end Heap

end CountedHeap
