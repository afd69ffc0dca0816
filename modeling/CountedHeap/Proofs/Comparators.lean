import CountedHeap.Proofs.CallCounts
import CountedHeap.Proofs.Questions
import CountedHeap.Proofs.Runs

/-!
Contract: sorting by a comparator of which nothing is known.

The comparator runs while the items are out of the sequence.  It may answer inconsistently,
allocate, sweep, write into the sequence, sort it, or fail.

Owns:
- the calls of a comparator in the order in which they are made, which are runs of the heap;
- what a sort leaves in the sequence after any such calls, and what it releases;
- the order of the records if the numbers that the comparator answers follow an order.

Does not own: the counts of the items while they are out.
-/

namespace CountedHeap

variable {σ : Signature} {call : Caller σ} {comparator : Value}

/-! ## Calls of a comparator -/

/-- Two elements that were compared, and the number that the answer stands for. -/
structure Comparison where
  left : Value
  right : Value
  number : Int64

/-- Comparisons of some elements that came to an answer, each called in the heap that the one before
it left. -/
inductive Compared (call : Caller σ) (comparator : Value) (among : List Value) :
    Heap σ → List Comparison → Heap σ → Prop
  | nil {heap : Heap σ} : Compared call comparator among heap [] heap
  | cons {heap between heap' : Heap σ} {left right answer : Value} {log : List Comparison}
      (leftAmong : left ∈ among) (rightAmong : right ∈ among)
      (called : call comparator [left, right] heap = .ok (.ok answer, between))
      (rest : Compared call comparator among between log heap') :
      Compared call comparator among heap (⟨left, right, between.asInt answer⟩ :: log) heap'

/-- How the comparisons of a sort end: all were answered, or the one after them failed and none was
made after that one. -/
inductive ComparisonsEnd (call : Caller σ) (comparator : Value) (among : List Value)
    (heap : Heap σ) (log : List Comparison) : Except Fault Unit → Heap σ → Prop
  | answered {after : Heap σ} (compared : Compared call comparator among heap log after) :
      ComparisonsEnd call comparator among heap log (.ok ()) after
  | failed {between after : Heap σ} {left right : Value} {fault : Fault}
      (compared : Compared call comparator among heap log between)
      (leftAmong : left ∈ among) (rightAmong : right ∈ among)
      (last : call comparator [left, right] between = .ok (.error fault, after)) :
      ComparisonsEnd call comparator among heap log (.error fault) after

/-- An order of some values in which any two can be compared. -/
structure TotalPreorder (good : Value → Prop) (le : Value → Value → Bool) : Prop where
  total : ∀ {left right}, good left → good right → le left right = true ∨ le right left = true
  trans : ∀ {first second third}, good first → good second → good third →
    le first second = true → le second third = true → le first third = true

/-- The numbers follow an order: they are negative where the left element is strictly below. -/
def Follows (le : Value → Value → Bool) (log : List Comparison) : Prop :=
  ∀ comparison ∈ log, comparison.number < 0 ↔ le comparison.right comparison.left = false

/-- The element by which a record is compared. -/
def leadOf (record : List Value) : Value :=
  record.headD .null

variable {heap heap' : Heap σ} {left right : Value}

/-- What a comparison comes to is what the call comes to. -/
theorem precedesBy_eq (call : Caller σ) (comparator left right : Value) (heap : Heap σ) :
    precedesBy call comparator left right heap =
      match call comparator [left, right] heap with
      | .ok (.ok answer, heap') => .ok (.ok (decide (heap'.asInt answer < 0)), heap')
      | .ok (.error fault, heap') => .ok (.error fault, heap')
      | .error reason => .error reason := by
  unfold precedesBy
  split
  next called => exact Action.bind_of_answer called
  next called => exact Action.bind_of_fault called
  next called => exact Action.bind_of_exhausted called

theorem answered_precedesBy {precedes : Bool}
    (ran : precedesBy call comparator left right heap = .ok (.ok precedes, heap')) :
    ∃ answer, call comparator [left, right] heap = .ok (.ok answer, heap') ∧
      precedes = decide (heap'.asInt answer < 0) := by
  rw [precedesBy_eq] at ran
  split at ran
  next answer after called =>
    obtain ⟨answered, rfl⟩ := Prod.mk.inj (Except.ok.inj ran)
    exact ⟨answer, called, (Except.ok.inj answered).symm⟩
  next => simp at ran
  next => contradiction

theorem faulted_precedesBy {fault : Fault}
    (ran : precedesBy call comparator left right heap = .ok (.error fault, heap')) :
    call comparator [left, right] heap = .ok (.error fault, heap') := by
  rw [precedesBy_eq] at ran
  split at ran
  next => simp at ran
  next called =>
    obtain ⟨faulted, rfl⟩ := Prod.mk.inj (Except.ok.inj ran)
    rw [called, Except.error.inj faulted]
  next => contradiction

theorem exhausted_precedesBy {reason : Exhausted}
    (ran : precedesBy call comparator left right heap = .error reason) :
    call comparator [left, right] heap = .error reason := by
  rw [precedesBy_eq] at ran
  split at ran
  next => contradiction
  next => contradiction
  next called => rw [called, Except.error.inj ran]

/-- The questions of a sort by a comparator are comparisons of leading elements. -/
theorem Compared.of_asked {records : List (List Value)}
    {log : List (List Value × List Value × Bool)}
    (asked : Records.Asked (· ∈ records) (askLeading (precedesBy call comparator)) heap log heap') :
    ∃ comparisons, Compared call comparator (records.map leadOf) heap comparisons heap' ∧
      log.map (fun entry => (leadOf entry.1, leadOf entry.2.1, entry.2.2)) =
        comparisons.map (fun comparison =>
          (comparison.left, comparison.right, decide (comparison.number < 0))) := by
  induction asked with
  | nil => exact ⟨[], .nil, rfl⟩
  | cons leftMember rightMember asked _ inductionHypothesis =>
      obtain ⟨comparisons, compared, same⟩ := inductionHypothesis
      obtain ⟨answer, called, rfl⟩ := answered_precedesBy asked
      refine ⟨_, .cons (List.mem_map_of_mem leftMember) (List.mem_map_of_mem rightMember) called
        compared, ?_⟩
      rw [List.map_cons, List.map_cons, same]

/-- If the numbers follow an order, the strict order of the leading elements gives the answers. -/
theorem Follows.agrees {le : Value → Value → Bool} {comparisons : List Comparison}
    (follows : Follows le comparisons) {log : List (List Value × List Value × Bool)}
    (same : log.map (fun entry => (leadOf entry.1, leadOf entry.2.1, entry.2.2)) =
      comparisons.map (fun comparison =>
        (comparison.left, comparison.right, decide (comparison.number < 0)))) :
    Records.Agrees (fun left right => !le (leadOf right) (leadOf left)) log := by
  intro entry member
  have entered := List.mem_map_of_mem
    (f := fun entry => (leadOf entry.1, leadOf entry.2.1, entry.2.2)) member
  rw [same] at entered
  obtain ⟨comparison, compared, equal⟩ := List.mem_map.mp entered
  obtain ⟨left, right, answer⟩ := entry
  simp only [Prod.mk.injEq] at equal
  obtain ⟨leftEqual, rightEqual, rfl⟩ := equal
  show (!le (leadOf right) (leadOf left)) = decide (comparison.number < 0)
  have follow := follows comparison compared
  rw [← leftEqual, ← rightEqual]
  cases below : le comparison.right comparison.left with
  | true => simpa [below] using follow
  | false => simpa [below] using follow

theorem TotalPreorder.orders {among : Value → Prop} {le : Value → Value → Bool}
    (order : TotalPreorder among le) :
    Records.Orders (fun record => among (leadOf record))
      (fun left right => !le (leadOf right) (leadOf left)) where
  asymm := fun goodLeft goodRight strict => by
    rw [Bool.not_eq_true'] at strict
    rw [Bool.not_eq_false']
    exact (order.total goodLeft goodRight).resolve_right (by simp [strict])
  trans := fun goodFirst goodSecond goodThird early late => by
    rw [Bool.not_eq_false'] at early late ⊢
    exact order.trans goodFirst goodSecond goodThird early late

/-- Sorted by a total preorder of their leading elements, records ascend in it, and those that are
equal in it keep their order. -/
theorem TotalPreorder.sorts {le : Value → Value → Bool} {records : List (List Value)}
    (order : TotalPreorder (· ∈ records.map leadOf) le) :
    let sorted := Records.mergeSortM (m := Id)
      (fun left right => !le (leadOf right) (leadOf left)) records
    sorted.Pairwise (fun first second => le (leadOf first) (leadOf second) = true) ∧
      ∀ record ∈ records,
        let equal := fun other =>
          le (leadOf record) (leadOf other) && le (leadOf other) (leadOf record)
        sorted.filter equal = records.filter equal := by
  have good : ∀ record ∈ records, leadOf record ∈ records.map leadOf :=
    fun record member => List.mem_map_of_mem member
  refine ⟨(Records.ascending_mergeSortM order.orders good).imp fun ascends => ?_,
    fun record member => Records.filter_mergeSortM order.orders ?_ good⟩
  · rwa [Bool.not_eq_false'] at ascends
  · intro left right goodLeft goodRight equalLeft equalRight
    rw [Bool.and_eq_true] at equalLeft equalRight
    rw [Bool.not_eq_false']
    exact order.trans goodRight (good record member) goodLeft equalRight.2 equalLeft.1

/-! ## Calls as runs -/

section Runs

variable {host : Host σ} {loose : Prop} {depth : Nat} {after : Heap σ} {log : List Comparison}
  {outcome : Except Fault Unit} {among : List Value}

theorem Compared.runs (hosted : host.RunsOn loose)
    (compared : Compared (exec host depth) comparator among heap log heap')
    (proper : heap.Proper loose) : heap.Runs loose heap' := by
  induction compared with
  | nil => exact .refl
  | cons _ _ called _ inductionHypothesis =>
      have before := hosted.exec depth _ _ _ _ _ called proper
      exact before.trans (inductionHypothesis (before.proper proper))

theorem ComparisonsEnd.runs (hosted : host.RunsOn loose)
    (ending : ComparisonsEnd (exec host depth) comparator among heap log outcome after)
    (proper : heap.Proper loose) : heap.Runs loose after := by
  cases ending with
  | answered compared => exact compared.runs hosted proper
  | failed compared _ _ last =>
      have before := compared.runs hosted proper
      exact before.trans (hosted.exec depth _ _ _ _ _ last (before.proper proper))

/-- A sequence that still resolves when the comparisons are over is still a sequence. -/
theorem ComparisonsEnd.exists_items? (hosted : host.RunsOn loose) (proper : heap.Proper loose)
    {sequence : Value} {items : List Value} (found : heap.items? sequence = some items)
    (ending : ComparisonsEnd (exec host depth) comparator among (heap.setChildren sequence []) log
      outcome after)
    (live : after.isLive sequence = true) : ∃ strays, after.items? sequence = some strays := by
  have detaching : heap.Runs loose (heap.setChildren sequence []) :=
    Heap.Runs.refl.detach sequence
  have runs := detaching.trans (ending.runs hosted (detaching.proper proper))
  obtain ⟨made, trace⟩ := (runs.leads proper (Nat.zero_le _)).trace
  have issued := proper.toConsistent.issued (Heap.isLive_of_items? found)
  apply Heap.exists_items?_of_isSequence
  rw [trace.kind_eq proper.toConsistent issued live]
  exact Heap.isSequence_of_items? found

end Runs

/-! ## Putting the items back -/

namespace Heap

theorem refs_restoreItems {sequence : Value} {strays : List Value}
    (found : heap.items? sequence = some strays) (items : List Value) (value : Value) :
    (heap.restoreItems sequence items).refs value = heap.refs value - strays.count value := by
  rw [restoreItems, found]
  dsimp only
  rw [refs_releaseAll, setChildren_eq_setPayload, refs_setPayload]

theorem payload_restoreItems {sequence value : Value} (different : value ≠ sequence)
    (items : List Value) :
    (heap.restoreItems sequence items).payload value = heap.payload value := by
  unfold restoreItems
  split
  next =>
    rw [payload_releaseAll, setChildren_eq_setPayload, payload_setPayload,
      if_neg fun both => different both.1]
  next => rfl

end Heap

/-! ## Cutting into records -/

namespace Records

theorem length_of_mem_cutRecords {α : Type} {step count : Nat} {items record : List α}
    (enough : count * step ≤ items.length) (member : record ∈ (cutRecords step count items).1) :
    record.length = step := by
  induction count generalizing items with
  | zero => contradiction
  | succ count inductionHypothesis =>
      rw [Nat.succ_mul] at enough
      rcases List.mem_cons.mp member with rfl | later
      · rw [List.length_take]
        omega
      · apply inductionHypothesis _ later
        rw [List.length_drop]
        omega

theorem length_flatten_cutRecords {α : Type} {step count : Nat} {items : List α}
    (enough : count * step ≤ items.length) :
    (cutRecords step count items).1.flatten.length = count * step := by
  induction count generalizing items with
  | zero => simp [cutRecords]
  | succ count inductionHypothesis =>
      rw [Nat.succ_mul] at enough ⊢
      have rest : count * step ≤ (items.drop step).length := by
        rw [List.length_drop]
        omega
      rw [cutRecords, List.flatten_cons, List.length_append, inductionHypothesis rest,
        List.length_take]
      omega

/-- The whole records of a list and the elements that are left over. -/
theorem cutRecords_whole {α : Type} (items : List α) (step : Nat) :
    let cut := cutRecords step (items.length / step) items
    cut.1.flatten ++ cut.2 = items ∧ (∀ record ∈ cut.1, record.length = step) ∧
      cut.2.length = items.length % step := by
  intro cut
  have whole : cut.1.flatten ++ cut.2 = items := flatten_cutRecords step _ items
  have enough : items.length / step * step ≤ items.length := Nat.div_mul_le_self _ _
  refine ⟨whole, fun record => length_of_mem_cutRecords enough, ?_⟩
  have front : cut.1.flatten.length = items.length / step * step :=
    length_flatten_cutRecords enough
  have lengths := congrArg List.length whole
  rw [List.length_append, front] at lengths
  have division := Nat.div_add_mod' items.length step
  omega

end Records

/-! ## Sorting -/

variable {sequence : Value} {items : List Value}

/-- The sort with a comparator that can be called, as its questions. -/
theorem sortItems_eq (found : heap.items? sequence = some items)
    (executable : heap.isExecutable comparator = true) (call : Caller σ) (step : Nat) :
    let cut := Records.cutRecords (max step 1) (items.length / max step 1) items
    sortItems call sequence step (some comparator) heap = (do
      let (outcome, after) ←
        (Records.mergeSortM (m := Action σ) (askLeading (precedesBy call comparator)) cut.1)
          (heap.setChildren sequence [])
      match outcome with
      | .ok sorted => return (.ok (), after.restoreItems sequence (sorted.flatten ++ cut.2))
      | .error fault => return (.error fault, after.restoreItems sequence items)) := by
  have callable : (heap.setChildren sequence []).isExecutable comparator = true := by
    rwa [Heap.isExecutable, Heap.kind_setChildren]
  have chosen : (some comparator).filter (heap.setChildren sequence []).isExecutable =
      some comparator := by
    rw [Option.filter_some, if_pos callable]
  unfold sortItems
  rw [found]
  dsimp only
  generalize Option.filter (heap.setChildren sequence []).isExecutable _ = function at chosen ⊢
  subst chosen
  rfl

/-- A sort is its comparisons, and then the items are put back: in the order of the answers, or as
they were if a comparison failed. -/
theorem sortItems_stages (found : heap.items? sequence = some items)
    (executable : heap.isExecutable comparator = true) {step : Nat}
    {outcome : Except Fault Unit}
    (done : sortItems call sequence step (some comparator) heap = .ok (outcome, heap')) :
    let cut := Records.cutRecords (max step 1) (items.length / max step 1) items
    ∃ log after items',
      ComparisonsEnd call comparator (cut.1.map leadOf) (heap.setChildren sequence []) log outcome
        after ∧
      heap' = after.restoreItems sequence items' ∧
      (∀ fault, outcome = .error fault → items' = items) ∧
      (outcome = .ok () → ∃ sorted, sorted.Perm cut.1 ∧ items' = sorted.flatten ++ cut.2 ∧
        ∀ le, Follows le log → sorted = Records.mergeSortM (m := Id)
          (fun left right => !le (leadOf right) (leadOf left)) cut.1) := by
  intro cut
  rw [sortItems_eq found executable] at done
  obtain ⟨⟨answer, after⟩, sorting, last⟩ := bind_eq_ok.mp done
  have asking : Records.Consults (· ∈ cut.1) (askLeading (precedesBy call comparator)) _ _
      (Records.mergeSortM (m := Action σ) _ cut.1) :=
    Records.consults_mergeSortM fun _ => id
  have consulted := asking (heap.setChildren sequence [])
  rw [sorting] at consulted
  cases consulted with
  | faulted asked leftMember rightMember failed =>
      obtain ⟨log, compared, -⟩ := Compared.of_asked asked
      obtain ⟨rfl, rfl⟩ := Prod.mk.inj (Except.ok.inj last)
      exact ⟨log, after, items, .failed compared (List.mem_map_of_mem leftMember)
        (List.mem_map_of_mem rightMember) (faulted_precedesBy failed), rfl, fun _ _ => rfl, nofun⟩
  | @answered records _ sorted asked _ settles =>
      obtain ⟨log, compared, same⟩ := Compared.of_asked asked
      obtain ⟨rfl, rfl⟩ := Prod.mk.inj (Except.ok.inj last)
      refine ⟨log, after, _, .answered compared, rfl, nofun, fun _ => ⟨sorted, ?_, rfl,
        fun le follows => (settles _ (follows.agrees same)).symm⟩⟩
      have permuting : Records.Permutes (fun _ _ => True)
          (Records.mergeSortM (m := Action σ) (askLeading (precedesBy call comparator)) cut.1)
          cut.1 :=
        Records.permutes_mergeSortM (fun _ => trivial) (fun _ _ _ _ _ => trivial)
          (fun _ _ _ _ _ _ _ _ => trivial) cut.1 (fun _ member => member)
      exact (permuting _ _ _ sorting).2 sorted rfl

/-- A sort that cannot go on was stopped by its comparator. -/
theorem sortItems_exhausted (found : heap.items? sequence = some items)
    (executable : heap.isExecutable comparator = true) {step : Nat} {reason : Exhausted}
    (done : sortItems call sequence step (some comparator) heap = .error reason) :
    let cut := Records.cutRecords (max step 1) (items.length / max step 1) items
    ∃ log between left right,
      Compared call comparator (cut.1.map leadOf) (heap.setChildren sequence []) log between ∧
        left ∈ cut.1.map leadOf ∧ right ∈ cut.1.map leadOf ∧
        call comparator [left, right] between = .error reason := by
  intro cut
  rw [sortItems_eq found executable] at done
  have asking : Records.Consults (· ∈ cut.1) (askLeading (precedesBy call comparator)) _ _
      (Records.mergeSortM (m := Action σ) _ cut.1) :=
    Records.consults_mergeSortM fun _ => id
  have consulted := asking (heap.setChildren sequence [])
  dsimp only at done
  generalize Records.mergeSortM (m := Action σ) _ _ (heap.setChildren sequence []) = result
    at done consulted
  cases consulted with
  | exhausted asked leftMember rightMember ended =>
      obtain ⟨log, compared, -⟩ := Compared.of_asked asked
      obtain rfl := Except.error.inj done
      exact ⟨log, _, _, _, compared, List.mem_map_of_mem leftMember,
        List.mem_map_of_mem rightMember, exhausted_precedesBy ended⟩
  | faulted => contradiction
  | answered => contradiction

/-- What a sort by a comparator leaves in the sequence.

The records are whole and keep their elements.  After a fault, which no further comparison follows,
the items are those at the beginning; otherwise they are the records in some order, with the
elements that were left over behind them.  This is so if the sequence still has items when the
comparisons are over, as it has if it still resolves.  What the comparator stored in the sequence is
released once for each place.  If its numbers follow a total preorder, the records ascend in it, and
those that are equal in it keep their order. -/
theorem sort_by_comparator (found : heap.items? sequence = some items)
    (executable : heap.isExecutable comparator = true) (call : Caller σ) (step : Nat) :
    let width := max step 1
    let records := (Records.cutRecords width (items.length / width) items).1
    let rest := (Records.cutRecords width (items.length / width) items).2
    let leads := records.map leadOf
    let detached := heap.setChildren sequence []
    (records.flatten ++ rest = items ∧ (∀ record ∈ records, record.length = width) ∧
      rest.length = items.length % width) ∧
    (∀ reason, sortItems call sequence step (some comparator) heap = .error reason →
      ∃ log between left right, Compared call comparator leads detached log between ∧
        left ∈ leads ∧ right ∈ leads ∧ call comparator [left, right] between = .error reason) ∧
    ∀ outcome heap', sortItems call sequence step (some comparator) heap = .ok (outcome, heap') →
      ∃ log after, ComparisonsEnd call comparator leads detached log outcome after ∧
        (∀ value, heap'.isLive value = after.isLive value) ∧
        (∀ loose host depth, call = exec host depth → host.RunsOn loose → heap.Proper loose →
          after.isLive sequence = true → ∃ strays, after.items? sequence = some strays) ∧
        ∀ strays, after.items? sequence = some strays →
          (∀ fault, outcome = .error fault → heap'.items? sequence = some items) ∧
          (outcome = .ok () → ∃ sorted : List (List Value), sorted.Perm records ∧
            heap'.items? sequence = some (sorted.flatten ++ rest) ∧
            ∀ le, TotalPreorder (· ∈ leads) le → Follows le log →
              sorted.Pairwise (fun first second => le (leadOf first) (leadOf second) = true) ∧
              ∀ record ∈ records,
                let equal := fun other =>
                  le (leadOf record) (leadOf other) && le (leadOf other) (leadOf record)
                sorted.filter equal = records.filter equal) ∧
          ∀ value, heap'.refs value = after.refs value - strays.count value ∧
            (value ≠ sequence → heap'.payload value = after.payload value) := by
  intro width records rest leads detached
  refine ⟨Records.cutRecords_whole items width,
    fun reason => sortItems_exhausted found executable, fun outcome heap' done => ?_⟩
  obtain ⟨log, after, items', ending, rfl, failed, answered⟩ :=
    sortItems_stages found executable done
  refine ⟨log, after, ending, Heap.isLive_restoreItems after sequence items',
    fun loose host depth same hosted proper => ?_,
    fun strays foundAfter => ⟨fun fault equal => ?_, fun equal => ?_,
      fun value => ⟨Heap.refs_restoreItems foundAfter items' value,
        fun different => Heap.payload_restoreItems different items'⟩⟩⟩
  · subst same
    exact ending.exists_items? hosted proper found
  · rw [Heap.items?_restoreItems foundAfter, failed fault equal]
  · obtain ⟨sorted, perm, rfl, decided⟩ := answered equal
    refine ⟨sorted, perm, Heap.items?_restoreItems foundAfter _, fun le order follows => ?_⟩
    obtain rfl := decided le follows
    exact order.sorts

/-! ## A comparator that pushes, one that fails, and one that orders -/

namespace Heap

theorem relay_runsOn (loose : Prop) : relay.RunsOn loose where
  plain := fun _ _ _ => Action.runsOn_throw _
  closure := fun calls _ auxiliary arguments => calls auxiliary arguments

/-- A string, an array of the string and of itself, the native that pushes, a native that fails, an
array of the numbers two, one and two, and the numbers by which a comparison is answered. -/
def comparing : List (Request relaying) :=
  [.string "x", .arrayOf [.cell ⟨0, 0⟩], .pushItem (.cell ⟨1, 0⟩) (.cell ⟨1, 0⟩),
    .native (.core .push), .native (.host ()), .int 2, .int 1, .int 2,
    .arrayOf [.cell ⟨4, 0⟩, .cell ⟨5, 0⟩, .cell ⟨6, 0⟩], .int (-1), .int 1]

theorem isSome_comparing : ((Heap.new {}).performAll? comparing).isSome = true := by
  decide +kernel

/-- The heap with both arrays. -/
def toCompare : Heap relaying :=
  ((Heap.new {}).performAll? comparing).get isSome_comparing

theorem proper_toCompare : toCompare.Proper True :=
  (Runs.refl.performAll? (Option.some_get isSome_comparing).symm).proper_new

/-- Which of two numbers is smaller, answered by a number that is there already. -/
def byNumber : Caller relaying :=
  fun _ arguments => Action.ask fun heap =>
    if heap.asInt (arguments[0]?.getD .null) < heap.asInt (arguments[1]?.getD .null) then
      .cell ⟨8, 0⟩
    else .cell ⟨9, 0⟩

/-- The order of numbers. -/
def lessOrEqual (heap : Heap relaying) (left right : Value) : Bool :=
  decide (heap.asInt left ≤ heap.asInt right)

theorem totalPreorder_lessOrEqual (heap : Heap relaying) (good : Value → Prop) :
    TotalPreorder good heap.lessOrEqual where
  total := fun _ _ => by
    simp only [lessOrEqual, decide_eq_true_eq]
    exact Int64.le_total _ _
  trans := fun _ _ _ first second => by
    simp only [lessOrEqual, decide_eq_true_eq] at first second ⊢
    exact Int64.le_trans first second

/-- Comparisons by number leave the heap as it is and follow the order of numbers. -/
theorem compared_byNumber {heap heap' : Heap relaying} {among : List Value}
    {log : List Comparison}
    (below : heap.asInt (.cell ⟨8, 0⟩) < 0) (above : ¬heap.asInt (.cell ⟨9, 0⟩) < 0)
    (compared : Compared byNumber comparator among heap log heap') :
    heap' = heap ∧ Follows heap.lessOrEqual log := by
  induction compared with
  | nil => exact ⟨rfl, by simp [Follows]⟩
  | cons _ _ called _ inductionHypothesis =>
      obtain ⟨answered, rfl⟩ := Prod.mk.inj (Except.ok.inj called)
      obtain rfl := Except.ok.inj answered
      obtain ⟨rfl, follows⟩ := inductionHypothesis below above
      refine ⟨rfl, List.forall_mem_cons.mpr ⟨?_, follows⟩⟩
      simp only [lessOrEqual, decide_eq_false_iff_not, Int64.not_le]
      constructor
      · intro negative
        by_contra notLess
        exact above (by simpa [notLess] using negative)
      · intro less
        simpa [less] using below

theorem exists_of_checked {σ : Signature} {α : Type}
    {result : Except Exhausted (Except Fault α × Heap σ)} {outcome : Except Fault α}
    {check : Heap σ → Bool}
    (ran : (result.toOption.map fun answer => (answer.1, check answer.2)) = some (outcome, true)) :
    ∃ heap', result = .ok (outcome, heap') ∧ check heap' = true := by
  cases result with
  | error reason => contradiction
  | ok answer =>
      obtain ⟨rfl, checked⟩ := Prod.mk.inj (Option.some.inj ran)
      exact ⟨answer.2, rfl, checked⟩

/-- A comparator that pushes onto the array that is sorted, one that fails, and one by which equal
numbers keep their order. -/
theorem arrays_after_comparators :
    (∃ heap' sorted, sortItems (exec relay 1) (.cell ⟨1, 0⟩) 1 (some (.cell ⟨2, 0⟩)) toCompare =
        .ok (.ok (), heap') ∧ heap'.items? (.cell ⟨1, 0⟩) = some sorted ∧
        sorted.Perm [.cell ⟨0, 0⟩, .cell ⟨1, 0⟩]) ∧
    (∃ heap', sortItems (exec relay 1) (.cell ⟨1, 0⟩) 1 (some (.cell ⟨3, 0⟩)) toCompare =
        .ok (.error (.native "boom"), heap') ∧
        heap'.items? (.cell ⟨1, 0⟩) = some [.cell ⟨0, 0⟩, .cell ⟨1, 0⟩]) ∧
    ∃ heap', ∃ sorted : List (List Value), sortItems byNumber (.cell ⟨7, 0⟩) 1
        (some (.cell ⟨2, 0⟩)) toCompare = .ok (.ok (), heap') ∧
      heap'.items? (.cell ⟨7, 0⟩) = some (sorted.flatten ++ []) ∧
      sorted.filter (fun record => (toCompare.setChildren (.cell ⟨7, 0⟩) []).lessOrEqual
          (.cell ⟨4, 0⟩) (leadOf record) && (toCompare.setChildren (.cell ⟨7, 0⟩) []).lessOrEqual
            (leadOf record) (.cell ⟨4, 0⟩)) = [[.cell ⟨4, 0⟩], [.cell ⟨6, 0⟩]] := by
  have found : toCompare.items? (.cell ⟨1, 0⟩) = some [.cell ⟨0, 0⟩, .cell ⟨1, 0⟩] := by
    decide +kernel
  have numbers : toCompare.items? (.cell ⟨7, 0⟩) =
      some [.cell ⟨4, 0⟩, .cell ⟨5, 0⟩, .cell ⟨6, 0⟩] := by
    decide +kernel
  have push : toCompare.isExecutable (.cell ⟨2, 0⟩) = true := by decide +kernel
  have fail : toCompare.isExecutable (.cell ⟨3, 0⟩) = true := by decide +kernel
  refine ⟨?_, ?_, ?_⟩
  · obtain ⟨heap', done, live⟩ : ∃ heap', sortItems (exec relay 1) (.cell ⟨1, 0⟩) 1
        (some (.cell ⟨2, 0⟩)) toCompare = .ok (.ok (), heap') ∧
          heap'.isLive (.cell ⟨1, 0⟩) = true :=
      exists_of_checked (by decide +kernel)
    obtain ⟨-, -, sorting⟩ := sort_by_comparator found push (exec relay 1) 1
    obtain ⟨log, after, -, same, resolves, put⟩ := sorting _ _ done
    obtain ⟨strays, foundAfter⟩ := resolves True relay 1 rfl (relay_runsOn True) proper_toCompare
      (same _ ▸ live)
    obtain ⟨-, answered, -⟩ := put strays foundAfter
    obtain ⟨sorted, perm, items, -⟩ := answered rfl
    exact ⟨heap', _, done, items, (perm.flatten).append_right _⟩
  · obtain ⟨heap', done, live⟩ : ∃ heap', sortItems (exec relay 1) (.cell ⟨1, 0⟩) 1
        (some (.cell ⟨3, 0⟩)) toCompare = .ok (.error (.native "boom"), heap') ∧
          heap'.isLive (.cell ⟨1, 0⟩) = true :=
      exists_of_checked (by decide +kernel)
    obtain ⟨-, -, sorting⟩ := sort_by_comparator found fail (exec relay 1) 1
    obtain ⟨log, after, -, same, resolves, put⟩ := sorting _ _ done
    obtain ⟨strays, foundAfter⟩ := resolves True relay 1 rfl (relay_runsOn True) proper_toCompare
      (same _ ▸ live)
    obtain ⟨failed, -, -⟩ := put strays foundAfter
    exact ⟨heap', done, failed _ rfl⟩
  · obtain ⟨heap', done, -⟩ : ∃ heap', sortItems byNumber (.cell ⟨7, 0⟩) 1 (some (.cell ⟨2, 0⟩))
        toCompare = .ok (.ok (), heap') ∧ heap'.isLive (.cell ⟨7, 0⟩) = true :=
      exists_of_checked (by decide +kernel)
    obtain ⟨-, -, sorting⟩ := sort_by_comparator numbers push byNumber 1
    obtain ⟨log, after, ending, -, -, put⟩ := sorting _ _ done
    cases ending with
    | answered compared =>
        obtain ⟨rfl, follows⟩ := compared_byNumber (by decide +kernel) (by decide +kernel) compared
        obtain ⟨-, answered, -⟩ := put [] (items?_setChildren numbers)
        obtain ⟨sorted, perm, items, ordered⟩ := answered rfl
        obtain ⟨-, stable⟩ := ordered _ (totalPreorder_lessOrEqual _ _) follows
        have twos := stable [.cell ⟨4, 0⟩] (by decide +kernel)
        exact ⟨heap', sorted, done, items, twos.trans (by decide +kernel)⟩

end Heap

end CountedHeap
