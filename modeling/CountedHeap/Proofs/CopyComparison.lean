import CountedHeap.Proofs.CopyTexts
import CountedHeap.Proofs.Nests
import CountedHeap.Proofs.OrderLaws

/-!
Contract: a copy cannot be told from its value.

A copy is written as the value was.  It also compares equal to it, as long as no container in it is
nested so deeply that containers are told apart by their handles.  The comparison goes down through
the value and its copy at once, a level for each container, and finds on every level the same
sizes, children that stand for one another, and in the end scalars of the same payload.

Owns:
- scalars that compare equal because their payloads are the same;
- values and their images compare equal down to the depth of the value;
- an array whose copy can be told from it, because it holds a handle that the copying issues.
-/

namespace CountedHeap

theorem Decimal.compareReal_self (number : Float) : compareReal number number = .eq := by
  have notLess : ¬number < number := fun less => real_lt_asymm less less
  rw [compareReal, if_neg notLess, if_neg notLess]

namespace Heap

variable {σ : Signature} {heap heap' : Heap σ} {image : Value → Value} {value answer copy : Value}

/-! ## Equal scalars -/

/-- Scalars with the same plain payload compare equal, a real that is no number among them. -/
theorem compareWithin_of_isPlainData {levels : Nat} {left right : Value}
    (same : heap.payload right = heap.payload left)
    (isPlain : (heap.payload left).isPlainData = true) :
    heap.compareWithin levels left right = .eq := by
  have kinds : heap.kind right = heap.kind left := by rw [kind, kind, same]
  cases payload : heap.payload left with
  | text content =>
      have isText : heap.kind left = .text := by rw [kind, payload]; rfl
      apply compareWithin_of_texts isText (kinds.trans isText)
      rw [text_of_payload_text payload, text_of_payload_text (same.trans payload)]
  | int number =>
      rw [compareWithin_eq, kinds, asInt, asInt, same, payload, kind, payload]
      simp [Payload.kind, Std.ReflCmp.compare_self]
  | real number =>
      rw [compareWithin_eq, kinds, asReal, asReal, same, payload, kind, payload]
      simp [Payload.kind, Kind.isNumeric, Decimal.compareReal_self]
  | null | array | hash | exec | file | program =>
      rw [payload] at isPlain
      contradiction

/-! ## Images -/

/-- While no handle below a value was foretold, the heap keeps what is below it. -/
theorem Settled.payload_eq (settled : heap.Settled heap' value) (grows : Grows heap heap')
    (consistent : heap.Consistent) {other : Value} (below : heap.Below value other) :
    heap'.payload other = heap.payload other := by
  rcases settled other below with issued | stale'
  · exact grows.payload issued
  · have stale : heap.isLive other = false := by
      apply eq_false_of_ne_true
      intro live
      rw [grows.live (consistent.issued live), live] at stale'
      contradiction
    rw [payload_of_not_isLive stale, payload_of_not_isLive stale']

/-- The image of a container has its size. -/
theorem SameGraph.size_image (graph : SameGraph heap heap' value answer image)
    (grows : Grows heap heap') (consistent : heap.Consistent) {other : Value}
    (stands : heap.Stands heap' value image other copy)
    (multi : (heap.kind other).isMulti = true) : heap'.size copy = heap.size other := by
  have kinds := graph.kind_image grows consistent stands.1 stands.2
  cases sequence : (heap.kind other).isSequence with
  | true =>
      rw [size_of_items? (items?_of_isSequence sequence),
        size_of_items? (items?_of_isSequence (kinds ▸ sequence))]
      exact (graph.forall₂_children stands multi).length_eq.symm
  | false =>
      have isHash : heap.kind other = .hash := by
        cases form : heap.kind other <;> simp_all [Kind.isMulti, Kind.isSequence]
      obtain ⟨content, found⟩ := exists_table?_of_kind isHash
      obtain ⟨content', found', pairs⟩ := graph.pairs ⟨stands.1, multi⟩ found
      rw [← stands.2.container multi] at found'
      rw [size, size, table?_eq_some_iff.mp found, table?_eq_some_iff.mp found']
      exact pairs

/-- What is no container compares equal to what stands for it. -/
theorem Stands.compareWithin_scalar {other : Value}
    (stands : heap.Stands heap' value image other copy) (grows : Grows heap heap')
    (consistent : heap.Consistent) (settled : heap.Settled heap' value) (levels : Nat)
    (single : (heap.kind other).isMulti = false) :
    heap'.compareWithin levels other copy = .eq := by
  obtain ⟨below, stands⟩ := stands
  have kept := settled.payload_eq grows consistent below
  cases live : heap.isLive other with
  | false =>
      have absent : heap'.kind other = .null := by
        rw [Heap.kind, kept, payload_of_not_isLive live]
        rfl
      rw [compareWithin_eq_iff_of_null absent, stands.absent live]
      rfl
  | true =>
      cases scratch : other.isScratch with
      | false =>
          rw [stands.same live single scratch]
          exact compareWithin_self levels other
      | true =>
          obtain ⟨isPlain, -, -, payload⟩ := stands.plain live single scratch
          apply compareWithin_of_isPlainData
          · rw [payload, kept]
          · rwa [kept]

/-- Values compare equal to their images on as many levels as they nest.  The induction is on the
levels: the comparison goes down a level where the nest does. -/
theorem SameGraph.compareWithin_image (graph : SameGraph heap heap' value answer image)
    (grows : Grows heap heap') (consistent : heap.Consistent)
    (settled : heap.Settled heap' value) {levels : Nat} {other : Value}
    (stands : heap.Stands heap' value image other copy) (nests : heap.NestsWithin levels other) :
    heap'.compareWithin levels other copy = .eq := by
  induction levels generalizing other copy with
  | zero =>
      have single := nestsWithin_zero_iff.mp nests
      exact stands.compareWithin_scalar grows consistent settled 0 single
  | succ levels inductionHypothesis =>
      cases multi : (heap.kind other).isMulti with
      | false => exact stands.compareWithin_scalar grows consistent settled _ multi
      | true =>
          have kept := settled.payload_eq grows consistent stands.1
          have kinds := graph.kind_image grows consistent stands.1 stands.2
          have kind : heap'.kind other = heap.kind other := by rw [Heap.kind, kept, Heap.kind]
          by_cases same : other = copy
          · rw [same]
            exact compareWithin_self _ copy
          rw [compareWithin_of_multi same (kind.trans kinds.symm) (kind ▸ multi),
            compareContainers]
          have sizes : heap'.size other = heap'.size copy := by
            rw [graph.size_image grows consistent stands multi, size, size, kept]
          have children : compareEach (heap'.compareWithin levels) (heap'.children other)
              (heap'.children copy) = .eq := by
            rw [children_of_payload_eq kept, compareEach_eq_iff]
            apply ((List.forall₂_and_left _ _).mpr
              ⟨fun _ => id, graph.forall₂_children stands multi⟩).imp
            rintro child copy ⟨member, standsChild⟩
            exact inductionHypothesis standsChild (nestsWithin_succ_iff.mp nests multi child member)
          rw [sizes, children, Ordering.then_eq]
          exact Std.ReflCmp.compare_self

/-- Below a value of which no container holds a handle that names nothing and comes to name
something while the value is copied, no handle is foretold. -/
theorem settled_clone (consistent : heap.Consistent)
    (unforetold : ∀ holder, heap.Below value holder → ∀ child ∈ heap.children holder,
      heap.isLive child = true ∨ (heap.clone value).2.isLive child = false) :
    heap.Settled (heap.clone value).2 value := by
  intro other below
  rcases Relation.ReflTransGen.cases_tail below with rfl | ⟨holder, before, member⟩
  · cases live : heap.isLive other with
    | true => exact .inl (consistent.issued live)
    | false =>
        rw [clone_of_not_isLive live]
        exact .inr live
  · exact (unforetold holder before other member).imp_left consistent.issued

/-- If no container below a value holds a handle that names nothing and comes to name something
while the value is copied, then the copy has the text that the value had; and if no nest of
containers that begins with the value is longer than a comparison goes down, the value compares
equal to its copy. -/
theorem Runs.copies_read_alike {config : Config} (runs : Runs True (.new config) heap)
    (value : Value)
    (unforetold : ∀ holder, heap.Below value holder → ∀ child ∈ heap.children holder,
      heap.isLive child = true ∨ (heap.clone value).2.isLive child = false) :
    (heap.clone value).2.text (heap.clone value).1 = heap.text value ∧
      (heap.NestsWithin 64 value →
        (heap.clone value).2.compare value (heap.clone value).1 = .eq) := by
  have proper := runs.proper_new
  have consistent := proper.toConsistent
  have grows := Grows.clone consistent value
  have settled := settled_clone consistent unforetold
  obtain ⟨copies, finished⟩ := finished_clone proper settled
  have graph := finished.sameGraph consistent
  constructor
  · exact graph.text_eq grows consistent
  · intro nests
    exact graph.compareWithin_image grows consistent settled ⟨.refl, graph.answer⟩ nests

/-- A hash and a scratch array with one array in common, which holds a number and a handle that was
never issued. -/
def sharingScript : List (Request .bare) :=
  [.string "a", .int 1, .arrayOf [.cell ⟨1, 0⟩, .cell ⟨9, 9⟩], .hash,
    .setKey (.cell ⟨3, 0⟩) (.cell ⟨0, 0⟩) (.cell ⟨2, 0⟩), .scratchArray 2,
    .pushItem (.scratch ⟨0, 0⟩) (.cell ⟨3, 0⟩), .pushItem (.scratch ⟨0, 0⟩) (.cell ⟨2, 0⟩)]

theorem isSome_sharing : ((new { hashBuckets := 1 }).performAll? sharingScript).isSome = true := by
  decide +kernel

def sharing : Heap .bare :=
  ((new { hashBuckets := 1 }).performAll? sharingScript).get isSome_sharing

theorem runs_sharing : Runs True (.new { hashBuckets := 1 }) sharing :=
  Runs.refl.performAll? (Option.some_get isSome_sharing).symm

/-- The scratch array is four containers deep: the hash is in it, the bucket in the hash, and the
array in the bucket. -/
theorem shared_array_reads_alike :
    Runs True (.new { hashBuckets := 1 }) sharing ∧
      sharing.NestsWithin 4 (.scratch ⟨0, 0⟩) ∧ ¬sharing.NestsWithin 3 (.scratch ⟨0, 0⟩) ∧
      (sharing.clone (.scratch ⟨0, 0⟩)).2.text (sharing.clone (.scratch ⟨0, 0⟩)).1 =
        "[\x7ba:[1,]\x7d,[1,]]" ∧
      (sharing.clone (.scratch ⟨0, 0⟩)).2.compare (.scratch ⟨0, 0⟩)
        (sharing.clone (.scratch ⟨0, 0⟩)).1 = .eq := by
  obtain ⟨unforetold, before, four, three, deep⟩ :
      (∀ holder ∈ sharing.handles, ∀ child ∈ sharing.children holder,
        sharing.isLive child = true ∨
          (sharing.clone (.scratch ⟨0, 0⟩)).2.isLive child = false) ∧
      sharing.text (.scratch ⟨0, 0⟩) = "[\x7ba:[1,]\x7d,[1,]]" ∧
      sharing.NestsWithin 4 (.scratch ⟨0, 0⟩) ∧ ¬sharing.NestsWithin 3 (.scratch ⟨0, 0⟩) ∧
      sharing.NestsWithin 64 (.scratch ⟨0, 0⟩) := by
    decide +kernel
  have live : ∀ {holder child}, child ∈ sharing.children holder → holder ∈ sharing.handles :=
    fun member => mem_handles_iff.mpr (isLive_of_isMulti (isMulti_of_mem_children member))
  obtain ⟨text, comparison⟩ := runs_sharing.copies_read_alike (.scratch ⟨0, 0⟩)
    fun holder _ child member => unforetold holder (live member) child member
  rw [before] at text
  exact ⟨runs_sharing, four, three, text, comparison deep⟩

/-- The array that holds the handle of its copy: the copy is written with a copy of itself in it,
and its element is the smaller one. -/
theorem foretelling_array_reads_differently :
    Runs True (.new {}) foretelling ∧
      foretelling.text (.cell ⟨0, 0⟩) = "[]" ∧
      (foretelling.clone (.cell ⟨0, 0⟩)).2.text (foretelling.clone (.cell ⟨0, 0⟩)).1 = "[[]]" ∧
      (foretelling.kind (.cell ⟨0, 0⟩)).isMulti = true ∧
      foretelling.NestsWithin 64 (.cell ⟨0, 0⟩) ∧
      (foretelling.clone (.cell ⟨0, 0⟩)).2.compare (.cell ⟨0, 0⟩)
        (foretelling.clone (.cell ⟨0, 0⟩)).1 = .gt := by
  have runs : Runs True (.new {}) foretelling :=
    .request .refl (show perform _ (.arrayOf [.cell ⟨1, 0⟩]) = .ok _ from rfl)
  exact ⟨runs, by decide +kernel⟩

end Heap

end CountedHeap
