import CountedHeap.Path
import CountedHeap.Proofs.ListView

/-!
Contract: the walk along a path, seen from the heap in which it begins.

A walk goes down through containers.  It is blocked by a present value that is no container and by a
position before the first item; where nothing is there it has found the place of a write.

Owns:
- the landing of a walk, found without writing;
- the walks that have none: they are empty, begin at nothing, or are blocked;
- what a walk without a landing reads and writes, and what one with a landing reads.

Does not own: what a write at a landing does.
-/

namespace CountedHeap.Heap

variable {σ : Signature} {heap : Heap σ} {current : Value} {part : String} {parts : List String}

/-! ## Places -/

/-- What can be walked through is a hash or a sequence. -/
theorem hash_or_items_of_isMulti {container : Value}
    (multi : (heap.kind container).isMulti = true) :
    heap.kind container = .hash ∨ ∃ items, heap.items? container = some items := by
  cases form : heap.kind container with
  | hash => exact .inl rfl
  | array | program => exact .inr (exists_items?_of_isSequence (by rw [form]; rfl))
  | null | text | int | real | exec | file =>
      rw [form] at multi
      contradiction

theorem isMulti_of_items? {sequence : Value} {items : List Value}
    (found : heap.items? sequence = some items) : (heap.kind sequence).isMulti = true := by
  have sequential := isSequence_of_items? found
  cases form : heap.kind sequence <;> simp_all [Kind.isSequence, Kind.isMulti]

theorem hasPlaceFor_of_hash {table : Value} (isHash : heap.kind table = .hash) :
    heap.hasPlaceFor table part = true := by
  rw [hasPlaceFor, isHash]

/-- A sequence has a place for a part that is a position in it or behind it. -/
theorem hasPlaceFor_of_items? {sequence : Value} {items : List Value}
    (found : heap.items? sequence = some items) :
    heap.hasPlaceFor sequence part = (position? items.length (partOffset part)).isSome := by
  have places : (decide (0 ≤ partOffset part) ||
      decide ((partOffset part).natAbs ≤ items.length)) =
        (position? items.length (partOffset part)).isSome := by
    unfold position?
    by_cases inFront : 0 ≤ partOffset part
    · simp [inFront]
    · by_cases reaches : (partOffset part).natAbs ≤ items.length <;> simp [inFront, reaches]
  rcases payload_of_items? found with array | program
  · rw [hasPlaceFor, kind, array]
    simp only [Payload.kind, size, array, places]
  · rw [hasPlaceFor, kind, program]
    simp only [Payload.kind, size, program, places]

theorem isMulti_of_hasPlaceFor {container : Value}
    (place : heap.hasPlaceFor container part = true) :
    (heap.kind container).isMulti = true := by
  unfold hasPlaceFor at place
  cases form : heap.kind container <;> simp_all [Kind.isMulti]

/-- In a sequence a part is read as a position. -/
theorem childAt_of_items? {sequence : Value} {items : List Value}
    (found : heap.items? sequence = some items) (part : String) :
    heap.childAt sequence part = heap.getItem sequence (partOffset part) := by
  have sequential := isSequence_of_items? found
  rw [childAt]
  cases form : heap.kind sequence <;> simp_all [Kind.isSequence]

/-- Under a position before the first item there is nothing. -/
theorem childAt_of_not_hasPlaceFor (noPlace : heap.hasPlaceFor current part = false) :
    heap.childAt current part = .null := by
  cases multi : (heap.kind current).isMulti with
  | false =>
      unfold childAt
      cases form : heap.kind current <;> simp_all [Kind.isMulti]
  | true =>
      rcases hash_or_items_of_isMulti multi with isHash | ⟨items, found⟩
      · rw [hasPlaceFor_of_hash isHash] at noPlace
        contradiction
      · rw [hasPlaceFor_of_items? found, Option.isSome_eq_false_iff, Option.isNone_iff_eq_none]
          at noPlace
        rw [childAt_of_items? found]
        exact (missesAt_of_position? found noPlace).get

/-! ## Landings -/

/-- Where a write at a path goes: the last container on the way, the part under which something is
stored in it, and the parts after that one. -/
structure Landing where
  site : Value
  part : String
  missing : List String
deriving DecidableEq, Repr

/-- The landing of the walk from a value, if it has one. -/
def landing? (heap : Heap σ) : Value → List String → Option Landing
  | _, [] => none
  | current, part :: rest =>
      if heap.hasPlaceFor current part then
        if rest = [] ∨ heap.kind (heap.childAt current part) = .null then
          some ⟨current, part, rest⟩
        else heap.landing? (heap.childAt current part) rest
      else none

/-- A walk with a landing has a place for its first part.  It lands there, or further down. -/
theorem landing?_cases {rest : List String} {landing : Landing}
    (found : heap.landing? current (part :: rest) = some landing) :
    heap.hasPlaceFor current part = true ∧
      ((rest = [] ∨ heap.kind (heap.childAt current part) = .null) ∧
          landing = ⟨current, part, rest⟩ ∨
        ¬(rest = [] ∨ heap.kind (heap.childAt current part) = .null) ∧
          heap.landing? (heap.childAt current part) rest = some landing) := by
  rw [landing?] at found
  split at found
  next place =>
    split at found
    next lands => exact ⟨place, .inl ⟨lands, (Option.some.inj found).symm⟩⟩
    next further => exact ⟨place, .inr ⟨further, found⟩⟩
  next => contradiction

/-- A walk is blocked: it comes to a present value that is no container, or to a position before the
first item of a sequence. -/
inductive Blocked (heap : Heap σ) : Value → List String → Prop
  | single {value : Value} {part : String} {rest : List String}
      (present : heap.kind value ≠ .null) (notMulti : (heap.kind value).isMulti = false) :
      Blocked heap value (part :: rest)
  | beforeFirst {sequence : Value} {items : List Value} {part : String} {rest : List String}
      (found : heap.items? sequence = some items)
      (miss : position? items.length (partOffset part) = none) :
      Blocked heap sequence (part :: rest)
  | deeper {container : Value} {part : String} {rest : List String}
      (multi : (heap.kind container).isMulti = true)
      (further : Blocked heap (heap.childAt container part) rest) :
      Blocked heap container (part :: rest)

/-- A walk that begins at nothing is not blocked. -/
theorem not_blocked_of_kind_null (absent : heap.kind current = .null) :
    ¬heap.Blocked current parts := by
  intro blocked
  cases blocked with
  | single present => exact present absent
  | beforeFirst found =>
      have multi := isMulti_of_items? found
      rw [absent] at multi
      contradiction
  | deeper multi =>
      rw [absent] at multi
      contradiction

/-- A walk with a part left is blocked at a present value without a place for it. -/
theorem blocked_of_not_hasPlaceFor {rest : List String} (present : heap.kind current ≠ .null)
    (noPlace : heap.hasPlaceFor current part = false) : heap.Blocked current (part :: rest) := by
  cases multi : (heap.kind current).isMulti with
  | false => exact .single present multi
  | true =>
      rcases hash_or_items_of_isMulti multi with isHash | ⟨items, found⟩
      · rw [hasPlaceFor_of_hash isHash] at noPlace
        contradiction
      · rw [hasPlaceFor_of_items? found, Option.isSome_eq_false_iff, Option.isNone_iff_eq_none]
          at noPlace
        exact .beforeFirst found noPlace

/-- Where there is a place for the part, a walk is blocked further down if at all. -/
theorem blocked_iff_of_hasPlaceFor {rest : List String}
    (place : heap.hasPlaceFor current part = true) :
    heap.Blocked current (part :: rest) ↔ heap.Blocked (heap.childAt current part) rest := by
  have multi := isMulti_of_hasPlaceFor place
  refine ⟨fun blocked => ?_, .deeper multi⟩
  cases blocked with
  | single _ notMulti =>
      rw [multi] at notMulti
      contradiction
  | beforeFirst found miss =>
      rw [hasPlaceFor_of_items? found, miss] at place
      contradiction
  | deeper _ further => exact further

/-- A walk has no landing if and only if it is empty, begins at nothing or is blocked. -/
theorem landing?_eq_none_iff : heap.landing? current parts = none ↔
    parts = [] ∨ heap.kind current = .null ∨ heap.Blocked current parts := by
  induction parts generalizing current with
  | nil => simp [landing?]
  | cons part rest inductionHypothesis =>
      rw [landing?]
      cases place : heap.hasPlaceFor current part with
      | false =>
          refine iff_of_true rfl (.inr ?_)
          by_cases absent : heap.kind current = .null
          · exact .inl absent
          · exact .inr (blocked_of_not_hasPlaceFor absent place)
      | true =>
          have present : heap.kind current ≠ .null := by
            intro absent
            have multi := isMulti_of_hasPlaceFor place
            rw [absent] at multi
            contradiction
          simp only [if_true, present, reduceCtorEq, false_or, blocked_iff_of_hasPlaceFor place]
          by_cases lands : rest = [] ∨ heap.kind (heap.childAt current part) = .null
          · rw [if_pos lands]
            refine iff_of_false nofun ?_
            rcases lands with rfl | absent
            · exact nofun
            · exact not_blocked_of_kind_null absent
          · obtain ⟨nonempty, further⟩ := not_or.mp lands
            rw [if_neg lands, inductionHypothesis]
            simp only [nonempty, further, false_or]

/-- A walk without a landing writes nothing. -/
theorem storeBelow_of_landing?_eq_none (none : heap.landing? current parts = none)
    (value : Value) : storeBelow current parts value heap = .ok (.null, heap) := by
  induction parts generalizing current with
  | nil => rfl
  | cons part rest inductionHypothesis =>
      rw [landing?] at none
      cases place : heap.hasPlaceFor current part with
      | false =>
          rw [storeBelow.eq_def]
          simp only [place, Bool.false_eq_true, if_false]
      | true =>
          rw [if_pos place] at none
          split at none
          next => contradiction
          next lands =>
            obtain ⟨nonempty, present⟩ := not_or.mp lands
            obtain ⟨following, others, rfl⟩ := List.exists_cons_of_ne_nil nonempty
            rw [storeBelow]
            simp only [place, if_true, present, if_false]
            split
            · exact inductionHypothesis none
            · rfl

/-- A walk from nothing, with a part left, reads nothing. -/
theorem follow_of_kind_null (absent : heap.kind current = .null) (nonempty : parts ≠ []) :
    heap.follow current parts = .null := by
  obtain ⟨part, rest, rfl⟩ := List.exists_cons_of_ne_nil nonempty
  rw [follow, absent]
  rfl

/-- A walk without a landing reads nothing, unless it is empty. -/
theorem follow_of_landing?_eq_none (none : heap.landing? current parts = none)
    (nonempty : parts ≠ []) : heap.follow current parts = .null := by
  induction parts generalizing current with
  | nil => contradiction
  | cons part rest inductionHypothesis =>
      rw [landing?] at none
      rw [follow]
      split
      next multi =>
        by_cases last : rest = []
        · -- The last part: without a place for it there is nothing under it.
          cases place : heap.hasPlaceFor current part with
          | true => simp [place, last] at none
          | false =>
              rw [last, follow]
              exact childAt_of_not_hasPlaceFor place
        · cases place : heap.hasPlaceFor current part with
          | false =>
              apply follow_of_kind_null _ last
              rw [childAt_of_not_hasPlaceFor place, kind_null]
          | true =>
              rw [if_pos place] at none
              split at none
              next => contradiction
              next => exact inductionHypothesis none last
      next => rfl

/-- A walk with a landing is not blocked. -/
theorem not_blocked_of_landing? {landing : Landing}
    (found : heap.landing? current parts = some landing) : ¬heap.Blocked current parts := by
  intro blocked
  rw [landing?_eq_none_iff.mpr (.inr (.inr blocked))] at found
  exact Option.some_ne_none _ found.symm

/-- The container of a landing has a place for the part. -/
theorem hasPlaceFor_site {landing : Landing}
    (found : heap.landing? current parts = some landing) :
    heap.hasPlaceFor landing.site landing.part = true := by
  induction parts generalizing current with
  | nil => contradiction
  | cons part rest inductionHypothesis =>
      obtain ⟨place, ⟨-, rfl⟩ | ⟨-, further⟩⟩ := landing?_cases found
      · exact place
      · exact inductionHypothesis further

theorem isMulti_of_landing? {landing : Landing}
    (found : heap.landing? current parts = some landing) :
    (heap.kind current).isMulti = true := by
  cases parts with
  | nil => contradiction
  | cons part rest => exact isMulti_of_hasPlaceFor (landing?_cases found).1

/-- A walk with a landing reads what is under the part, and nothing if parts are missing. -/
theorem follow_of_landing? {landing : Landing}
    (found : heap.landing? current parts = some landing) :
    heap.follow current parts =
      if landing.missing = [] then heap.childAt landing.site landing.part else .null := by
  induction parts generalizing current with
  | nil => contradiction
  | cons part rest inductionHypothesis =>
      rw [follow, if_pos (isMulti_of_landing? found)]
      obtain ⟨-, ⟨lands, rfl⟩ | ⟨-, further⟩⟩ := landing?_cases found
      · dsimp only
        by_cases last : rest = []
        · rw [if_pos last, last, follow]
        · rw [if_neg last]
          exact follow_of_kind_null (lands.resolve_left last) last
      · exact inductionHypothesis further

end CountedHeap.Heap
