import CountedHeap.Proofs.Scopes
import CountedHeap.Order

/-!
Contract: the laws of the order of values that hold whatever the heap.

The order need not be transitive.  It is antisymmetric, and it reads nothing but the two values and
what is below them.

Owns:
- a comparison the other way round has the other answer, for reals, identities, lists of children
  and values, and a value equals itself;
- what it takes for containers, strings and absent values to compare equal;
- heaps that agree on what is below two values compare them alike.
-/

namespace CountedHeap

namespace Decimal

open Float.Model in
/-- Floats compare the other way round as the reverse, or not at all. -/
theorem unpacked_compare_swap (left right : UnpackedFloat) :
    right.compare left = (left.compare right).map Ordering.swap := by
  cases left with
  | notANumber => cases right <;> rfl
  | infinity sign =>
      cases sign <;> cases right with
      | infinity sign' => cases sign' <;> rfl
      | notANumber | zero => rfl
      | finite sign' => cases sign' <;> rfl
  | zero sign =>
      cases right with
      | infinity sign' | finite sign' => cases sign' <;> rfl
      | notANumber | zero => rfl
  | finite sign mantissa exponent positive =>
      cases right with
      | infinity sign' => cases sign' <;> cases sign <;> rfl
      | notANumber | zero => cases sign <;> rfl
      | finite sign' mantissa' exponent' positive' =>
          have swapped : (Ord.compare exponent' exponent).then (Ord.compare mantissa' mantissa) =
              ((Ord.compare exponent exponent').then (Ord.compare mantissa mantissa')).swap := by
            rw [Ordering.swap_then, ← Std.OrientedCmp.eq_swap, ← Std.OrientedCmp.eq_swap]
          cases sign <;> cases sign'
          case negative.negative =>
            exact congrArg (fun order : Ordering => some order.swap) swapped
          case positive.positive => exact congrArg some swapped
          all_goals rfl

theorem real_lt_iff {left right : Float} :
    left < right ↔ left.toModel.unpack.compare right.toModel.unpack = some .lt := by
  show left.lt right = true ↔ _
  simp [Float.lt, LT.lt, Float.Model.lt, Float.Model.UnpackedFloat.lt]

/-- No two reals are each less than the other. -/
theorem real_lt_asymm {left right : Float} (less : left < right) : ¬right < left := by
  rw [real_lt_iff] at less ⊢
  rw [unpacked_compare_swap, less]
  decide

theorem compareReal_swap (left right : Float) :
    compareReal right left = (compareReal left right).swap := by
  unfold compareReal
  by_cases less : left < right
  · rw [if_neg (real_lt_asymm less), if_pos less, if_pos less]
    rfl
  · rw [if_neg less, if_neg less]
    split <;> rfl

end Decimal

theorem Value.compareIdentity_swap (left right : Value) :
    right.compareIdentity left = (left.compareIdentity right).swap := by
  have swap : ∀ first second : Nat, Ord.compare second first = (Ord.compare first second).swap :=
    fun _ _ => Std.OrientedCmp.eq_swap
  simp only [Value.compareIdentity, Ordering.swap_then, ← swap]

namespace Heap

variable {σ : Signature} {heap heap' : Heap σ}

/-- Lists of children compare the other way round as the reverse, if their children do. -/
theorem compareEach_swap {compareChild : Value → Value → Ordering}
    (swap : ∀ left right, compareChild right left = (compareChild left right).swap)
    (lefts rights : List Value) :
    compareEach compareChild rights lefts = (compareEach compareChild lefts rights).swap := by
  induction lefts generalizing rights with
  | nil => cases rights <;> rfl
  | cons left lefts inductionHypothesis =>
      cases rights with
      | nil => rfl
      | cons right rights =>
          rw [compareEach, compareEach, swap left right]
          cases compareChild left right with
          | eq => exact inductionHypothesis rights
          | lt | gt => rfl

/-- The order of two containers of one kind that are not the same one. -/
def compareContainers (heap : Heap σ) (left right : Value) : Nat → Ordering
  | 0 => left.compareIdentity right
  | levels + 1 =>
      (Ord.compare (heap.size left) (heap.size right)).then
        (compareEach (heap.compareWithin levels) (heap.children left) (heap.children right))

/-- The comparison, with the order of containers named. -/
theorem compareWithin_eq (levels : Nat) (left right : Value) :
    heap.compareWithin levels left right =
      if left = right then .eq
      else if heap.kind left = .null ∧ heap.kind right = .null then .eq
      else if heap.kind left = .null then .lt
      else if heap.kind right = .null then .gt
      else if heap.kind left = .int ∧ heap.kind right = .int then
        Ord.compare (heap.asInt left) (heap.asInt right)
      else if (heap.kind left).isNumeric ∧ (heap.kind right).isNumeric then
        Decimal.compareReal (heap.asReal left) (heap.asReal right)
      else if heap.kind left = heap.kind right ∧ (heap.kind left).isMulti then
        heap.compareContainers left right levels
      else if heap.kind left = heap.kind right ∧
          (heap.kind left = .exec ∨ heap.kind left = .file) then
        left.compareIdentity right
      else Ord.compare (heap.text left) (heap.text right) := by
  rw [compareWithin.eq_def]
  cases levels with
  | zero => rfl
  | succ levels =>
      dsimp only [compareContainers]
      cases Ord.compare (heap.size left) (heap.size right) <;> rfl

/-- Two values compare the other way round as the reverse, if as containers they do. -/
theorem compareWithin_swap_of {levels : Nat} {left right : Value}
    (containers : heap.compareContainers right left levels =
      (heap.compareContainers left right levels).swap) :
    heap.compareWithin levels right left = (heap.compareWithin levels left right).swap := by
  rw [compareWithin_eq, compareWithin_eq levels left right]
  by_cases same : left = right
  · rw [if_pos same, if_pos same.symm]
    rfl
  rw [if_neg same, if_neg (Ne.symm same)]
  by_cases absent : heap.kind left = .null
  · by_cases absent' : heap.kind right = .null <;> simp [absent, absent']
  by_cases absent' : heap.kind right = .null
  · simp [absent, absent']
  simp only [absent, absent', and_self, if_false]
  by_cases whole : heap.kind left = .int ∧ heap.kind right = .int
  · rw [if_pos whole, if_pos whole.symm]
    exact Std.OrientedCmp.eq_swap
  rw [if_neg whole, if_neg (mt And.symm whole)]
  by_cases numeric : (heap.kind left).isNumeric ∧ (heap.kind right).isNumeric
  · rw [if_pos numeric, if_pos numeric.symm]
    exact Decimal.compareReal_swap _ _
  rw [if_neg numeric, if_neg (mt And.symm numeric)]
  by_cases alike : heap.kind left = heap.kind right
  · rw [alike]
    split
    · exact containers
    split
    · exact Value.compareIdentity_swap _ _
    · exact Std.OrientedCmp.eq_swap
  · simp only [alike, Ne.symm alike, false_and, if_false]
    exact Std.OrientedCmp.eq_swap

/-- Two values compare the other way round as the reverse, at every depth. -/
theorem compareWithin_swap (levels : Nat) (left right : Value) :
    heap.compareWithin levels right left = (heap.compareWithin levels left right).swap := by
  induction levels generalizing left right with
  | zero => exact compareWithin_swap_of (Value.compareIdentity_swap left right)
  | succ levels inductionHypothesis =>
      apply compareWithin_swap_of
      rw [compareContainers, compareContainers, Ordering.swap_then, ← Std.OrientedCmp.eq_swap,
        ← compareEach_swap inductionHypothesis]

theorem compare_swap (left right : Value) :
    heap.compare right left = (heap.compare left right).swap :=
  compareWithin_swap compareLevels left right

/-- A value compares equal to itself at every depth, a cyclic container and a real that is no number
among them: it is never looked into. -/
theorem compareWithin_self (levels : Nat) (value : Value) :
    heap.compareWithin levels value value = .eq := by
  rw [compareWithin_eq, if_pos rfl]

/-- The order of values is antisymmetric on every heap, whatever the two values are. -/
theorem compare_antisymmetric (heap : Heap σ) :
    (∀ left right, heap.compare right left = (heap.compare left right).swap) ∧
      ∀ value, heap.compare value value = .eq := by
  constructor
  · intro left right
    exact compare_swap left right
  · intro value
    exact compareWithin_self compareLevels value

/-! ## Values that compare equal -/

theorem compareEach_eq_iff {compareChild : Value → Value → Ordering} {lefts rights : List Value} :
    compareEach compareChild lefts rights = .eq ↔
      List.Forall₂ (fun left right => compareChild left right = .eq) lefts rights := by
  induction lefts generalizing rights with
  | nil => cases rights <;> simp [compareEach]
  | cons left lefts inductionHypothesis =>
      cases rights with
      | nil => simp [compareEach]
      | cons right rights =>
          rw [compareEach, List.forall₂_cons, ← inductionHypothesis]
          cases compareChild left right <;> simp

/-- Two different containers of one kind compare as containers. -/
theorem compareWithin_of_multi {levels : Nat} {left right : Value} (different : left ≠ right)
    (alike : heap.kind left = heap.kind right) (multi : (heap.kind left).isMulti = true) :
    heap.compareWithin levels left right = heap.compareContainers left right levels := by
  rw [compareWithin_eq, if_neg different, ← alike]
  generalize heap.kind left = form at multi ⊢
  cases form <;> simp_all [Kind.isMulti, Kind.isNumeric]

/-- Strings compare equal when they are the same text. -/
theorem compareWithin_of_texts {levels : Nat} {left right : Value}
    (leftText : heap.kind left = .text) (rightText : heap.kind right = .text)
    (same : heap.text left = heap.text right) : heap.compareWithin levels left right = .eq := by
  rw [compareWithin_eq, leftText, rightText, same]
  simp [Kind.isMulti, Kind.isNumeric, Std.ReflCmp.compare_self]

/-- An absent value compares equal to nothing else. -/
theorem compareWithin_eq_iff_of_null {levels : Nat} {left right : Value}
    (absent : heap.kind left = .null) :
    heap.compareWithin levels left right = .eq ↔ heap.kind right = .null := by
  rw [compareWithin_eq, absent]
  by_cases same : left = right
  · rw [if_pos same, ← same, absent]
    exact iff_of_true rfl rfl
  · by_cases absent' : heap.kind right = .null <;> simp [same, absent']

/-! ## What a comparison reads -/

theorem compareEach_congr {compareChild compareChild' : Value → Value → Ordering}
    {lefts rights : List Value}
    (same : ∀ left ∈ lefts, ∀ right ∈ rights,
      compareChild' left right = compareChild left right) :
    compareEach compareChild' lefts rights = compareEach compareChild lefts rights := by
  induction lefts generalizing rights with
  | nil => cases rights <;> rfl
  | cons left lefts inductionHypothesis =>
      cases rights with
      | nil => rfl
      | cons right rights =>
          rw [compareEach, compareEach, same left List.mem_cons_self right List.mem_cons_self]
          cases compareChild left right with
          | eq =>
              exact inductionHypothesis fun left leftMember right rightMember =>
                same left (List.mem_cons_of_mem _ leftMember) right
                  (List.mem_cons_of_mem _ rightMember)
          | lt | gt => rfl

private theorem compareWithin_congr_of {kept : Set Value}
    (payload : ∀ {value}, value ∈ kept → heap'.payload value = heap.payload value)
    (below : ∀ {value child}, value ∈ kept → child ∈ heap.children value → child ∈ kept)
    {levels : Nat} {left right : Value} (leftKept : left ∈ kept) (rightKept : right ∈ kept)
    (containers : heap'.compareContainers left right levels =
      heap.compareContainers left right levels) :
    heap'.compareWithin levels left right = heap.compareWithin levels left right := by
  have kind {value : Value} (member : value ∈ kept) : heap'.kind value = heap.kind value := by
    rw [Heap.kind, Heap.kind, payload member]
  have asInt {value : Value} (member : value ∈ kept) : heap'.asInt value = heap.asInt value := by
    rw [Heap.asInt, Heap.asInt, payload member]
  have asReal {value : Value} (member : value ∈ kept) :
      heap'.asReal value = heap.asReal value := by
    rw [Heap.asReal, Heap.asReal, payload member]
  have text {value : Value} (member : value ∈ kept) : heap'.text value = heap.text value :=
    textWithin_congr payload below member []
  rw [compareWithin_eq, compareWithin_eq, containers]
  simp only [kind leftKept, kind rightKept, asInt leftKept, asInt rightKept, asReal leftKept,
    asReal rightKept, text leftKept, text rightKept]

/-- A heap that agrees with another on a set of values, and on what is below them, compares them
alike. -/
theorem compareWithin_congr {kept : Set Value}
    (payload : ∀ {value}, value ∈ kept → heap'.payload value = heap.payload value)
    (below : ∀ {value child}, value ∈ kept → child ∈ heap.children value → child ∈ kept)
    (levels : Nat) {left right : Value} (leftKept : left ∈ kept) (rightKept : right ∈ kept) :
    heap'.compareWithin levels left right = heap.compareWithin levels left right := by
  induction levels generalizing left right with
  | zero => exact compareWithin_congr_of payload below leftKept rightKept rfl
  | succ levels inductionHypothesis =>
      apply compareWithin_congr_of payload below leftKept rightKept
      rw [compareContainers, compareContainers, size, size, children, children,
        payload leftKept, payload rightKept]
      congr 1
      apply compareEach_congr
      intro first firstMember second secondMember
      exact inductionHypothesis (below leftKept firstMember) (below rightKept secondMember)

theorem compare_congr {kept : Set Value}
    (payload : ∀ {value}, value ∈ kept → heap'.payload value = heap.payload value)
    (below : ∀ {value child}, value ∈ kept → child ∈ heap.children value → child ∈ kept)
    {left right : Value} (leftKept : left ∈ kept) (rightKept : right ∈ kept) :
    heap'.compare left right = heap.compare left right :=
  compareWithin_congr payload below compareLevels leftKept rightKept

end Heap

end CountedHeap
