import CountedHeap.Proofs.CopyGraph
import CountedHeap.Proofs.TableComparison
import Mathlib.Data.Char
import Mathlib.Data.List.Lex

/-!
Contract: the order of values is transitive where no strings and no reals take part.

Values of different kinds compare by their texts.  The beginning of the text of any other kind tells
the kind, so that order is an order of the kinds.  Values of one kind compare by a number, by
identity, or as containers, and containers compare by size and then child by child.  All in all the
order is lexicographic: first what a value shows of itself, then its children.

Owns:
- values that lead to no string and to no real;
- the texts of one kind lie between two landmarks;
- the order of such values is lexicographic at every depth, and hence transitive.

Does not own: strings and reals.  With strings among the values the order is not transitive.
-/

namespace CountedHeap

/-- The place of a kind in the order of values. -/
def Kind.rank : Kind → Nat
  | .null => 0
  | .int => 1
  | .exec => 2
  | .file => 3
  | .program => 4
  | .array => 5
  | .hash => 6
  | .text | .real => 7

/-- The texts of the values of a rank begin here and end before the landmark of the next rank. -/
def landmark : Nat → List Char
  | 0 | 1 => []
  | 2 => ['<']
  | 3 => ['<', 'f']
  | 4 => ['<', 'p']
  | 5 => ['[']
  | 6 => ['\x7b']
  | _ => ['|']

theorem landmark_mono {first second : Nat} (order : first ≤ second) :
    landmark first ≤ landmark second := by
  apply monotone_nat_of_le_succ ?_ order
  intro rank
  match rank with
  | 0 | 1 | 2 | 3 | 4 | 5 | 6 => decide
  | _ + 7 => exact le_refl _

/-! ## Comparisons of lists -/

theorem compare_natCast (left right : Nat) :
    Ord.compare (left : Int) (right : Int) = Ord.compare left right := by
  show compareOfLessAndEq _ _ = compareOfLessAndEq _ _
  simp only [compareOfLessAndEq, Int.natCast_inj, Int.ofNat_lt]

theorem compare_toInt (left right : Int64) :
    Ord.compare left.toInt right.toInt = Ord.compare left right := by
  show compareOfLessAndEq _ _ = compareOfLessAndEq _ _
  simp only [compareOfLessAndEq, Int64.lt_iff_toInt_lt, Int64.toInt_inj]

theorem compare_cons (first second : Int) (rest rest' : List Int) :
    Ord.compare (first :: rest) (second :: rest') =
      (Ord.compare first second).then (Ord.compare rest rest') :=
  List.compareLex_cons_cons

theorem compare_nil : Ord.compare ([] : List Int) [] = .eq := rfl

/-- The identity of a handle as a list, which compares as the identity does. -/
def Value.place (value : Value) : List Int :=
  [value.identity.1, value.identity.2.1, value.identity.2.2]

theorem Value.compare_place (left right : Value) :
    Ord.compare left.place right.place = left.compareIdentity right := by
  simp only [Value.place, Value.compareIdentity, compare_cons, compare_nil,
    compare_natCast, Ordering.then_eq]

namespace Heap

variable {σ : Signature} {heap : Heap σ}

/-! ## The texts of the kinds -/

theorem lt_landmark_of_head {text : String} (low : ∀ first ∈ text.toList.head?, first < '<') :
    text.toList < landmark 2 := by
  show text.toList < ['<']
  cases listed : text.toList with
  | nil => exact List.nil_lt_cons _ _
  | cons first rest =>
      rw [listed] at low
      exact List.cons_lt_cons_iff.mpr (.inl (low first rfl))

theorem integerText_lt (number : Int) :
    (Decimal.integerText number).toList < landmark 2 := by
  apply lt_landmark_of_head
  intro first isFirst
  unfold Decimal.integerText at isFirst
  split at isFirst
  next =>
    rw [String.toList_append] at isFirst
    obtain rfl : '-' = first := Option.some.inj isFirst
    decide
  next =>
    rw [Decimal.naturalText, String.toList_ofList] at isFirst
    have digit := Nat.isDigit_of_mem_toDigits (by decide) (by decide)
      (List.mem_of_mem_head? isFirst)
    exact lt_of_le_of_lt (Char.isDigit_iff_toNat.mp digit).2 (by decide)

/-- A text begins with the landmark of its kind and ends before the next one. -/
theorem text_between {value : Value} (present : 0 < (heap.kind value).rank)
    (plain : (heap.kind value).rank < 7) :
    landmark (heap.kind value).rank <+: (heap.text value).toList ∧
      (heap.text value).toList < landmark ((heap.kind value).rank + 1) := by
  unfold text textWithin
  split
  all_goals
    rename_i content
    rw [kind, content] at present plain ⊢
    simp only [Payload.kind, Kind.rank, landmark] at present plain ⊢
  case h_1 => contradiction
  case h_2 | h_4 => omega
  case h_3 => exact ⟨List.nil_prefix, integerText_lt _⟩
  case h_5 | h_6 =>
    rw [dif_neg List.not_mem_nil]
    simp [List.cons_lt_cons_iff]
  all_goals simp [List.cons_lt_cons_iff]

/-- The texts of values of different kinds are in the order of the kinds. -/
theorem text_lt_text {left right : Value} (present : 0 < (heap.kind left).rank)
    (plain : (heap.kind right).rank < 7)
    (less : (heap.kind left).rank < (heap.kind right).rank) :
    heap.text left < heap.text right := by
  have fromLandmark : landmark (heap.kind right).rank ≤ (heap.text right).toList :=
    not_lt.mp (text_between (Nat.zero_lt_of_lt less) plain).1.le
  calc (heap.text left).toList
      < landmark ((heap.kind left).rank + 1) := (text_between present (less.trans plain)).2
    _ ≤ landmark (heap.kind right).rank := landmark_mono less
    _ ≤ (heap.text right).toList := fromLandmark

/-! ## The lexicographic order -/

/-- The value leads to no string and to no real. -/
def Discrete (heap : Heap σ) (value : Value) : Prop :=
  ∀ other, heap.Below value other → heap.kind other ≠ .text ∧ heap.kind other ≠ .real

theorem Discrete.child {value child : Value} (discrete : heap.Discrete value)
    (member : child ∈ heap.children value) : heap.Discrete child :=
  fun other below => discrete other (.head member below)

theorem Discrete.rank_lt {value : Value} (discrete : heap.Discrete value) :
    (heap.kind value).rank < 7 := by
  obtain ⟨notText, notReal⟩ := discrete value .refl
  revert notText notReal
  cases heap.kind value <;> decide

/-- What is compared of values of one kind before their children. -/
def outline (heap : Heap σ) (levels : Nat) (value : Value) : List Int :=
  match heap.kind value with
  | .int => [(heap.asInt value).toInt]
  | .exec | .file => value.place
  | .array | .hash | .program =>
      match levels with
      | 0 => value.place
      | _ + 1 => [heap.size value]
  | .null | .text | .real => []

/-- What is compared before the children: the kind, then the outline. -/
def heading (heap : Heap σ) (levels : Nat) (value : Value) : List Int :=
  (heap.kind value).rank :: heap.outline levels value

/-- The comparison of the children, if there are levels left for them. -/
def compareChildren (heap : Heap σ) : Nat → Value → Value → Ordering
  | 0, _, _ => .eq
  | levels + 1, left, right =>
      compareEach (heap.compareWithin levels) (heap.children left) (heap.children right)

theorem compareChildren_self (levels : Nat) (value : Value) :
    heap.compareChildren levels value value = .eq := by
  cases levels with
  | zero => rfl
  | succ levels =>
      exact compareEach_eq_iff.mpr (List.forall₂_same.mpr fun child _ =>
        compareWithin_self levels child)

/-- Where there are no children, there is nothing to compare of them. -/
theorem compareChildren_of_not_isMulti {left right : Value}
    (single : (heap.kind left).isMulti = false) (single' : (heap.kind right).isMulti = false)
    (levels : Nat) : heap.compareChildren levels left right = .eq := by
  have none : ∀ {value}, (heap.kind value).isMulti = false → heap.children value = [] := by
    intro value single
    apply List.eq_nil_iff_forall_not_mem.mpr
    intro child member
    rw [isMulti_of_mem_children member] at single
    contradiction
  cases levels with
  | zero => rfl
  | succ levels =>
      rw [compareChildren, none single, none single']
      rfl

/-- Values of one kind have headings that differ in the outline only. -/
theorem compare_heading_of_kind_eq {left right : Value} (same : heap.kind left = heap.kind right)
    (levels : Nat) :
    Ord.compare (heap.heading levels left) (heap.heading levels right) =
      Ord.compare (heap.outline levels left) (heap.outline levels right) := by
  rw [heading, heading, compare_cons, same,
    Std.ReflOrd.compare_self]
  rfl

/-- Values of different kinds have headings that compare as the kinds do. -/
theorem compare_heading_of_rank_lt {left right : Value}
    (less : (heap.kind left).rank < (heap.kind right).rank) (levels : Nat) :
    Ord.compare (heap.heading levels left) (heap.heading levels right) = .lt := by
  rw [heading, heading, compare_cons, compare_natCast, Nat.compare_eq_lt.mpr less]
  rfl

theorem outline_of_isMulti {value : Value} (multi : (heap.kind value).isMulti = true) :
    heap.outline 0 value = value.place ∧
      ∀ levels, heap.outline (levels + 1) value = [(heap.size value : Int)] := by
  unfold outline
  cases form : heap.kind value <;> simp_all [Kind.isMulti]

/-- Values of one kind compare by their outlines, then by their children. -/
theorem compareWithin_of_kind_eq {left right : Value} (same : heap.kind left = heap.kind right)
    (plain : (heap.kind left).rank < 7) (different : left ≠ right) (levels : Nat) :
    heap.compareWithin levels left right =
      (Ord.compare (heap.outline levels left) (heap.outline levels right)).then
        (heap.compareChildren levels left right) := by
  cases multi : (heap.kind left).isMulti with
  | true =>
      obtain ⟨atBottom, above⟩ := outline_of_isMulti multi
      obtain ⟨atBottom', above'⟩ := outline_of_isMulti (same ▸ multi)
      rw [compareWithin_of_multi different same multi]
      cases levels with
      | zero =>
          rw [atBottom, atBottom', Value.compare_place]
          exact Ordering.then_eq.symm
      | succ levels =>
          rw [above, above', compare_cons, compare_nil, compare_natCast, Ordering.then_eq]
          rfl
  | false =>
      rw [compareChildren_of_not_isMulti multi (same ▸ multi), Ordering.then_eq,
        compareWithin_eq, if_neg different]
      unfold outline
      rw [← same]
      cases form : heap.kind left with
      | int => simp [compare_toInt]
      | null => rfl
      | exec | file => simp [Kind.isNumeric, Kind.isMulti, Value.compare_place]
      | array | hash | program => simp [form, Kind.isMulti] at multi
      | text | real => simp [form, Kind.rank] at plain

/-- A value of a lower kind is less. -/
theorem compareWithin_of_rank_lt {left right : Value} (plain : (heap.kind right).rank < 7)
    (less : (heap.kind left).rank < (heap.kind right).rank) (levels : Nat) :
    heap.compareWithin levels left right = .lt := by
  have different : left ≠ right := by
    rintro rfl
    exact Nat.lt_irrefl _ less
  have present : heap.kind right ≠ .null := by
    intro absent
    rw [absent] at less
    exact Nat.not_lt_zero _ less
  rw [compareWithin_eq, if_neg different]
  by_cases absent : heap.kind left = .null
  · simp [absent, present]
  · have positive : 0 < (heap.kind left).rank := by
      revert absent
      cases heap.kind left <;> decide
    have texts := compare_eq_lt_iff.mpr (text_lt_text positive plain less)
    rw [texts]
    have unlike : heap.kind left ≠ heap.kind right := fun same => Nat.lt_irrefl _ (same ▸ less)
    have apart : ¬((heap.kind left).isNumeric ∧ (heap.kind right).isNumeric) := by
      revert plain less
      cases heap.kind left <;> cases heap.kind right <;> decide
    have integers : ¬(heap.kind left = .int ∧ heap.kind right = .int) :=
      fun both => unlike (both.1.trans both.2.symm)
    simp [absent, present, integers, apart, unlike]

theorem eq_of_rank_eq {first second : Kind} (plain : first.rank < 7)
    (same : first.rank = second.rank) : first = second := by
  revert plain same
  cases first <;> cases second <;> decide

/-- The order of values that lead to no string and no real: the headings decide, then the
children. -/
theorem Discrete.compareWithin_eq {left right : Value} (discrete : heap.Discrete left)
    (discrete' : heap.Discrete right) (levels : Nat) :
    heap.compareWithin levels left right =
      (Ord.compare (heap.heading levels left) (heap.heading levels right)).then
        (heap.compareChildren levels left right) := by
  by_cases equal : left = right
  · rw [equal, compareWithin_self, compareChildren_self, compare_heading_of_kind_eq rfl,
      Std.ReflOrd.compare_self]
    rfl
  · rcases Nat.lt_trichotomy (heap.kind left).rank (heap.kind right).rank with
      less | same | greater
    · rw [compareWithin_of_rank_lt discrete'.rank_lt less, compare_heading_of_rank_lt less]
      rfl
    · have alike := eq_of_rank_eq discrete.rank_lt same
      rw [compareWithin_of_kind_eq alike discrete.rank_lt equal, compare_heading_of_kind_eq alike]
    · rw [compareWithin_swap, compareWithin_of_rank_lt discrete.rank_lt greater,
        Std.OrientedOrd.eq_swap, compare_heading_of_rank_lt greater]
      rfl

/-! ## Transitivity -/

/-- The order at some depth, of the values that lead to no string and no real. -/
def compareDiscrete (heap : Heap σ) (levels : Nat) (left right : {value // heap.Discrete value}) :
    Ordering :=
  heap.compareWithin levels left.val right.val

/-- The children of such a value lead to no string and no real either. -/
def discreteChildren (heap : Heap σ) (value : {value // heap.Discrete value}) :
    List {value // heap.Discrete value} :=
  (heap.children value.val).attachWith heap.Discrete fun _ member => value.property.child member

theorem compareEach_map_val (levels : Nat) (lefts rights : List {value // heap.Discrete value}) :
    compareEach (heap.compareWithin levels) (lefts.map Subtype.val) (rights.map Subtype.val) =
      lefts.compareLex (heap.compareDiscrete levels) rights := by
  induction lefts generalizing rights with
  | nil => cases rights <;> rfl
  | cons left lefts inductionHypothesis =>
      cases rights with
      | nil => rfl
      | cons right rights =>
          rw [List.compareLex_cons_cons, ← inductionHypothesis, List.map_cons, List.map_cons,
            compareEach, compareDiscrete]
          cases heap.compareWithin levels left.val right.val <;> rfl

theorem compareChildren_succ (levels : Nat) (left right : {value // heap.Discrete value}) :
    heap.compareChildren (levels + 1) left.val right.val =
      (heap.discreteChildren left).compareLex (heap.compareDiscrete levels)
        (heap.discreteChildren right) := by
  rw [← compareEach_map_val, discreteChildren, discreteChildren, List.attachWith_map_subtype_val,
    List.attachWith_map_subtype_val, compareChildren]

/-- At every depth the order is that of the headings and then, lexicographically, that of the
children one level deeper. -/
theorem transCmp_compareDiscrete (levels : Nat) : Std.TransCmp (heap.compareDiscrete levels) := by
  induction levels with
  | zero =>
      have flat : heap.compareDiscrete 0 = compareOn fun value => heap.heading 0 value.val := by
        funext left right
        rw [compareDiscrete, left.property.compareWithin_eq right.property]
        exact Ordering.then_eq
      rw [flat]
      infer_instance
  | succ levels inductionHypothesis =>
      have nested : heap.compareDiscrete (levels + 1) =
          compareLex (compareOn fun value => heap.heading (levels + 1) value.val)
            fun left right => (heap.discreteChildren left).compareLex (heap.compareDiscrete levels)
              (heap.discreteChildren right) := by
        funext left right
        rw [compareDiscrete, left.property.compareWithin_eq right.property, compareChildren_succ]
        rfl
      have children : Std.TransCmp fun left right : {value // heap.Discrete value} =>
          (heap.discreteChildren left).compareLex (heap.compareDiscrete levels)
            (heap.discreteChildren right) :=
        { eq_swap := Std.OrientedCmp.eq_swap
          isLE_trans := Std.TransCmp.isLE_trans }
      rw [nested]
      infer_instance

/-- The order is transitive on values that lead to no string and no real, and two values that are
equal by it have nothing but equal ones between them. -/
theorem compare_trans_of_discrete (heap : Heap σ) {first second third : Value}
    (discrete : heap.Discrete first) (discrete' : heap.Discrete second)
    (discrete'' : heap.Discrete third) (order : heap.compare first second ≠ .gt)
    (order' : heap.compare second third ≠ .gt) :
    heap.compare first third ≠ .gt ∧
      (heap.compare first third = .eq →
        heap.compare first second = .eq ∧ heap.compare second third = .eq) := by
  have transitive : Std.TransCmp (heap.compareDiscrete compareLevels) :=
    transCmp_compareDiscrete compareLevels
  let lowest : {value // heap.Discrete value} := ⟨first, discrete⟩
  let middle : {value // heap.Discrete value} := ⟨second, discrete'⟩
  let highest : {value // heap.Discrete value} := ⟨third, discrete''⟩
  have below : (heap.compareDiscrete compareLevels lowest middle).isLE :=
    Ordering.isLE_iff_ne_gt.mpr order
  have below' : (heap.compareDiscrete compareLevels middle highest).isLE :=
    Ordering.isLE_iff_ne_gt.mpr order'
  have whole : (heap.compareDiscrete compareLevels lowest highest).isLE :=
    Std.TransCmp.isLE_trans below below'
  refine ⟨Ordering.isLE_iff_ne_gt.mp whole, fun equal => ?_⟩
  change heap.compareDiscrete compareLevels lowest highest = .eq at equal
  have back : (heap.compareDiscrete compareLevels middle lowest).isLE :=
    Std.TransCmp.isLE_trans below' (Ordering.isLE_of_eq_eq (Std.OrientedCmp.eq_symm equal))
  have level : heap.compareDiscrete compareLevels lowest middle = .eq :=
    Std.OrientedCmp.isLE_antisymm below back
  exact ⟨level, (Std.TransCmp.congr_left level).symm.trans equal⟩

/-- Values that have only each other as children, and no string and no real among them. -/
theorem discrete_of_closed {values : List Value}
    (closed : ∀ value ∈ values, ∀ child ∈ heap.children value, child ∈ values)
    (kinds : ∀ value ∈ values, heap.kind value ≠ .text ∧ heap.kind value ≠ .real) {value : Value}
    (member : value ∈ values) : heap.Discrete value := by
  intro other below
  apply kinds
  induction below with
  | refl => exact member
  | tail _ child inductionHypothesis => exact closed _ inductionHypothesis _ child

/-- A string, two arrays that each hold a number and themselves, and a hash from a number to the
first of them. -/
def revolving : List (Request .bare) :=
  [.string "s", .int 1, .arrayOf [.cell ⟨1, 0⟩], .pushItem (.cell ⟨2, 0⟩) (.cell ⟨2, 0⟩),
    .int 1, .arrayOf [.cell ⟨3, 0⟩], .pushItem (.cell ⟨4, 0⟩) (.cell ⟨4, 0⟩), .hash,
    .setKey (.cell ⟨5, 0⟩) (.cell ⟨1, 0⟩) (.cell ⟨2, 0⟩)]

theorem isSome_revolving : ((new { hashBuckets := 1 }).performAll? revolving).isSome = true := by
  decide +kernel

/-- The heap with the arrays and the hash. -/
def revolved : Heap .bare :=
  ((new { hashBuckets := 1 }).performAll? revolving).get isSome_revolving

/-- The arrays compare by identity where the comparison gives up, and with the hash by kind. -/
theorem revolved_in_order :
    revolved.Discrete (.cell ⟨2, 0⟩) ∧ revolved.Discrete (.cell ⟨4, 0⟩) ∧
      revolved.Discrete (.cell ⟨5, 0⟩) ∧
      revolved.compare (.cell ⟨2, 0⟩) (.cell ⟨4, 0⟩) = .lt ∧
      revolved.compare (.cell ⟨4, 0⟩) (.cell ⟨5, 0⟩) = .lt ∧
      revolved.compare (.cell ⟨2, 0⟩) (.cell ⟨5, 0⟩) ≠ .gt := by
  have discrete : ∀ {value}, value ∈ [.cell ⟨1, 0⟩, .cell ⟨2, 0⟩, .cell ⟨3, 0⟩, .cell ⟨4, 0⟩,
      .cell ⟨5, 0⟩, .cell ⟨6, 0⟩] → revolved.Discrete value :=
    discrete_of_closed (by decide +kernel) (by decide +kernel)
  have first : revolved.Discrete (.cell ⟨2, 0⟩) := discrete (by decide)
  have second : revolved.Discrete (.cell ⟨4, 0⟩) := discrete (by decide)
  have third : revolved.Discrete (.cell ⟨5, 0⟩) := discrete (by decide)
  have order : revolved.compare (.cell ⟨2, 0⟩) (.cell ⟨4, 0⟩) = .lt := by decide +kernel
  have order' : revolved.compare (.cell ⟨4, 0⟩) (.cell ⟨5, 0⟩) = .lt := by decide +kernel
  exact ⟨first, second, third, order, order',
    (compare_trans_of_discrete revolved first second third (by rw [order]; decide)
      (by rw [order']; decide)).1⟩

end Heap

end CountedHeap
