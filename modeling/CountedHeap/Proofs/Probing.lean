import CountedHeap.Proofs.GuardedTables

/-!
Contract: bisection over records by a probe that may remember what it was asked.

A probe answers where an element stands to a key.  It may have a state and answer differently each
time, and the search still ends: it asks about whole records only, and finds a record only if the
last answer was that it matches.

Owns:
- calls of a function with a state, one after another;
- the search by such a probe, spelled by guarded steps, and that it is the search for a probe
  without effects;
- what it finds if the records run from below the key over level to above, and that a record with
  the key can be inserted where it finds none.
-/

namespace CountedHeap

/-! ## Calls -/

/-- Calls of a function that may remember: what it is asked and what it answers, in order, between
two states. -/
inductive Called {State Question Answer : Type} (function : Question → StateM State Answer) :
    State → List (Question × Answer) → State → Prop
  | nil {state : State} : Called function state [] state
  | cons {state later last : State} {asked : Question} {answered : Answer}
      {calls : List (Question × Answer)} (call : (function asked).run state = (answered, later))
      (rest : Called function later calls last) :
      Called function state ((asked, answered) :: calls) last

section Called

variable {State Question Answer : Type} {function : Question → StateM State Answer}
  {state later last : State} {calls calls' : List (Question × Answer)}

theorem Called.append (first : Called function state calls later)
    (second : Called function later calls' last) :
    Called function state (calls ++ calls') last := by
  induction first with
  | nil => exact second
  | cons call _ inductionHypothesis => exact .cons call (inductionHypothesis second)

theorem Called.single (function : Question → StateM State Answer) (state : State)
    (asked : Question) :
    Called function state [(asked, ((function asked).run state).1)]
      ((function asked).run state).2 :=
  .cons rfl .nil

/-- Every answer was given in some state. -/
theorem Called.exists_state (called : Called function state calls later) :
    ∀ call ∈ calls, ∃ asking, ((function call.1).run asking).1 = call.2 := by
  induction called with
  | nil =>
      intro call member
      contradiction
  | @cons state later last asked answered calls here _ inductionHypothesis =>
      intro call member
      cases List.mem_cons.mp member with
      | inl first =>
          rw [first]
          exact ⟨state, congrArg Prod.fst here⟩
      | inr others => exact inductionHypothesis call others

/-- A function without a state answers the same each time. -/
theorem Called.answered {rule : Question → Answer}
    (called : Called (fun asked => (pure (rule asked) : StateM State Answer)) state calls later) :
    ∀ call ∈ calls, call.2 = rule call.1 := by
  intro call member
  obtain ⟨_, answered⟩ := called.exists_state call member
  exact answered.symm

end Called

namespace Records

variable {α : Type}

/-- The leading element of a whole record. -/
def leading (items : List α) (step : Nat) (record : Fin (items.length / max step 1)) : α :=
  items.get ⟨record.val * max step 1,
    Guarded.lt_length_of_lt_div (lt_max_of_lt_right Nat.one_pos) record.isLt⟩

theorem getElem?_leading (items : List α) (step : Nat)
    (record : Fin (items.length / max step 1)) :
    items[record.val * max step 1]? = some (leading items step record) :=
  List.getElem?_eq_getElem _

/-- Where a record stands: the first ones are below, the next ones level, and all others above. -/
def standing (less equal record : Nat) : Ordering :=
  if record < less then .lt else if record < less + equal then .eq else .gt

theorem standing_eq_lt_iff {less equal record : Nat} :
    standing less equal record = .lt ↔ record < less := by
  unfold standing
  split
  next below => exact ⟨fun _ => below, fun _ => rfl⟩
  next notBelow =>
    split
    · exact ⟨fun answer => by contradiction, fun below => absurd below notBelow⟩
    · exact ⟨fun answer => by contradiction, fun below => absurd below notBelow⟩

/-- The first record that is not below is level, if any is. -/
theorem standing_self_eq_iff {less equal : Nat} : standing less equal less = .eq ↔ 0 < equal := by
  unfold standing
  rw [if_neg (Nat.lt_irrefl less)]
  split
  next level => exact ⟨fun _ => by omega, fun _ => rfl⟩
  next above => exact ⟨fun answer => by contradiction, fun level => by omega⟩

end Records

/-! ## The search -/

namespace Guarded

open Records

section Search

variable {m : Type → Type} [Monad m] {α : Type}

/-- Bisection between two records, by a probe that can have effects. -/
def bisectBy (items : List α) (step : Nat) (probe : α → m Ordering) (low high : Nat) :
    Guarded m Nat :=
  if low < high then do
    let _ ← minus high low
    let middle := low + (high - low) / 2
    let answer ← liftM (probe (← element items (middle * step)))
    if answer == .lt then bisectBy items step probe (middle + 1) high
    else bisectBy items step probe low middle
  else pure low
termination_by high - low
decreasing_by all_goals omega

/-- Find the first record whose leading element matches, by a probe that can have effects. -/
def seekBy (items : List α) (step : Nat) (probe : α → m Ordering) : Guarded m Seek := do
  let step := max step 1
  let _ ← modulo items.length step
  let record ← bisectBy items step probe 0 (items.length / step)
  if record < items.length / step then
    let answer ← liftM (probe (← element items (record * step)))
    return if answer == .eq then .found (record * step) else .missing (record * step)
  else
    return .missing (record * step)

variable [LawfulMonad m] (items : List α) (step : Nat)

/-- One step of a bisection asks about the record in the middle. -/
theorem bisectBy_of_lt (probe : α → m Ordering) {low high : Nat} (less : low < high)
    (whole : low + (high - low) / 2 < items.length / max step 1) :
    bisectBy items (max step 1) probe low high = (do
      let answer ← liftM (probe (leading items step ⟨low + (high - low) / 2, whole⟩))
      if answer == .lt then bisectBy items (max step 1) probe (low + (high - low) / 2 + 1) high
      else bisectBy items (max step 1) probe low (low + (high - low) / 2) : Guarded m Nat) := by
  have present := getElem?_leading items step ⟨low + (high - low) / 2, whole⟩
  rw [bisectBy, if_pos less, minus_eq (Nat.le_of_lt less), pure_bind]
  dsimp only
  rw [element_eq present, pure_bind]

/-- The search asks about the record at which the bisection stops, if there is one. -/
theorem seekBy_eq (probe : α → m Ordering) :
    seekBy items step probe = (do
      let record ← bisectBy items (max step 1) probe 0 (items.length / max step 1)
      if whole : record < items.length / max step 1 then
        let answer ← liftM (probe (leading items step ⟨record, whole⟩))
        return if answer == .eq then .found (record * max step 1)
          else .missing (record * max step 1)
      else return .missing (record * max step 1) : Guarded m Seek) := by
  have positive : 0 < max step 1 := lt_max_of_lt_right Nat.one_pos
  unfold seekBy
  dsimp only
  rw [modulo_eq positive, pure_bind]
  refine bind_congr fun record => ?_
  split
  next whole =>
    have present := getElem?_leading items step ⟨record, whole⟩
    rw [element_eq present, pure_bind]
  next => rfl

/-- By a probe without effects, bisection stops where it did. -/
theorem bisectBy_pure (probe : α → Ordering) {low high : Nat}
    (whole : high ≤ items.length / max step 1) :
    bisectBy items (max step 1) (fun item => pure (probe item)) low high =
      (pure (firstNotBelow (leads items (max step 1) probe .lt) low high) : Guarded m Nat) := by
  fun_induction firstNotBelow (leads items (max step 1) probe .lt) low high with
  | case1 low high less middle isBelow inductionHypothesis =>
      have inside : low + (high - low) / 2 < items.length / max step 1 := by omega
      have answer : leads items (max step 1) probe .lt (low + (high - low) / 2) = _ :=
        leads_eq (getElem?_leading items step ⟨_, inside⟩) .lt
      rw [bisectBy_of_lt items step _ less inside, liftM_pure, pure_bind, ← answer, if_pos isBelow]
      exact inductionHypothesis whole
  | case2 low high less middle notBelow inductionHypothesis =>
      have inside : low + (high - low) / 2 < items.length / max step 1 := by omega
      have answer : leads items (max step 1) probe .lt (low + (high - low) / 2) = _ :=
        leads_eq (getElem?_leading items step ⟨_, inside⟩) .lt
      rw [bisectBy_of_lt items step _ less inside, liftM_pure, pure_bind, ← answer, if_neg notBelow]
      exact inductionHypothesis (by omega)
  | case3 low high notLess => rw [bisectBy, if_neg notLess]

/-- By a probe without effects, this is the search. -/
theorem seekBy_pure (probe : α → Ordering) :
    seekBy items step (fun item => pure (probe item)) =
      (pure (Records.seek items step probe) : Guarded m Seek) := by
  rw [seekBy_eq, bisectBy_pure items step probe (Nat.le_refl _), pure_bind]
  unfold Records.seek
  dsimp only
  generalize firstNotBelow _ _ _ = record
  split
  next whole =>
    have answer : leads items (max step 1) probe .eq record = _ :=
      leads_eq (getElem?_leading items step ⟨record, whole⟩) .eq
    rw [liftM_pure, pure_bind, decide_eq_true whole, Bool.true_and, answer]
  next notWhole => rw [decide_eq_false notWhole, Bool.false_and, if_neg Bool.false_ne_true]

end Search

/-! ## The answers given -/

section Answers

variable {α State : Type}

/-- Running what may remember, and then what never missteps before it. -/
theorem run_liftM_bind_state {β : Type} (action : StateM State α)
    (next : α → Guarded (StateM State) β) (state : State) :
    (liftM action >>= next : Guarded (StateM State) β).run.run state =
      (next (action.run state).1).run.run (action.run state).2 := rfl

/-- Running what comes to a result, and then something else. -/
theorem run_bind_of_ok {β : Type} {first : Guarded (StateM State) α}
    (next : α → Guarded (StateM State) β) {state later : State} {result : α}
    (stops : first.run.run state = (.ok result, later)) :
    (first >>= next).run.run state = (next result).run.run later := by
  show (ExceptT.bindCont next (first.run.run state).1).run (first.run.run state).2 = _
  rw [stops]
  rfl

variable {items : List α} {step : Nat} {probe : α → StateM State Ordering} {low high : Nat}
  {state later : State}

/-- What the bisection between two records comes to: where it stops, what was asked and answered,
and the state then. -/
structure Bisects (items : List α) (step : Nat) (probe : α → StateM State Ordering)
    (low high : Nat) (state : State) (border : Nat)
    (asked : List (Fin (items.length / max step 1) × Ordering)) (later : State) : Prop where
  stops : (bisectBy items (max step 1) probe low high).run.run state = (.ok border, later)
  called : Called (fun record => probe (leading items step record)) state asked later
  least : low ≤ border
  most : border ≤ high
  /-- Answers that run up leave one place to stop. -/
  border_eq : ∀ {less equal : Nat}, low ≤ less → less ≤ high →
    (∀ call ∈ asked, call.2 = standing less equal call.1) → border = less

/-- Nothing is asked between a record and itself. -/
theorem Bisects.nil (items : List α) (step : Nat) (probe : α → StateM State Ordering)
    (record : Nat) (state : State) :
    Bisects items step probe record record state record [] state where
  stops := by
    rw [bisectBy, if_neg (Nat.lt_irrefl record)]
    rfl
  called := .nil
  least := Nat.le_refl _
  most := Nat.le_refl _
  border_eq := fun atLeast atMost _ => Nat.le_antisymm atLeast atMost

/-- The record in the middle is asked about, and the bisection goes on above it or below it. -/
theorem Bisects.cons (less : low < high)
    {middle : Fin (items.length / max step 1)} (between : middle.val = low + (high - low) / 2)
    {next : State} {answer : Ordering}
    (answered : (probe (leading items step middle)).run state = (answer, next))
    {border : Nat} {asked : List (Fin (items.length / max step 1) × Ordering)}
    (onward : if answer = .lt
      then Bisects items step probe (middle + 1) high next border asked later
      else Bisects items step probe low middle next border asked later) :
    Bisects items step probe low high state border ((middle, answer) :: asked) later := by
  have inside : low + (high - low) / 2 < items.length / max step 1 := between ▸ middle.isLt
  obtain rfl : middle = ⟨_, inside⟩ := Fin.ext between
  have stepping := bisectBy_of_lt items step probe less inside
  have run (rest : Ordering → Guarded (StateM State) Nat) :=
    run_liftM_bind_state (probe (leading items step ⟨_, inside⟩)) rest state
  rw [answered] at run
  split at onward
  next below =>
    subst below
    refine ⟨?_, .cons answered onward.called, ?_, onward.most, ?_⟩
    · rw [stepping, run]
      exact onward.stops
    · exact Nat.le_trans (by dsimp only; omega) onward.least
    · intro first level atLeast atMost running
      have here := standing_eq_lt_iff.mp (running _ List.mem_cons_self).symm
      exact onward.border_eq here atMost fun call member =>
        running call (List.mem_cons_of_mem _ member)
  next notBelow =>
    refine ⟨?_, .cons answered onward.called, onward.least, ?_, ?_⟩
    · rw [stepping, run]
      have refused : (answer == Ordering.lt) = false := beq_false_of_ne notBelow
      rw [refused]
      exact onward.stops
    · exact Nat.le_trans onward.most (by dsimp only; omega)
    · intro first level atLeast atMost running
      have here : ¬low + (high - low) / 2 < first := fun below =>
        notBelow ((running _ List.mem_cons_self).trans (standing_eq_lt_iff.mpr below))
      exact onward.border_eq atLeast (Nat.le_of_not_lt here) fun call member =>
        running call (List.mem_cons_of_mem _ member)

theorem exists_bisects (items : List α) (step : Nat) (probe : α → StateM State Ordering)
    (ordered : low ≤ high) (whole : high ≤ items.length / max step 1) (state : State) :
    ∃ border asked later, Bisects items step probe low high state border asked later := by
  induction remaining : high - low using Nat.strong_induction_on generalizing low high state with
  | _ remaining inductionHypothesis =>
      rcases Nat.lt_or_eq_of_le ordered with less | rfl
      · have inside : low + (high - low) / 2 < items.length / max step 1 := by omega
        cases answered : (probe (leading items step ⟨_, inside⟩)).run state with
        | mk answer next =>
            by_cases below : answer = .lt
            · obtain ⟨border, asked, later, onward⟩ :=
                inductionHypothesis (high - (low + (high - low) / 2 + 1)) (by omega)
                  (by omega) whole next rfl
              exact ⟨border, _, later, .cons less rfl answered (by rw [if_pos below]; exact onward)⟩
            · obtain ⟨border, asked, later, onward⟩ :=
                inductionHypothesis (low + (high - low) / 2 - low) (by omega)
                  (by omega) (Nat.le_of_lt inside) next rfl
              exact ⟨border, _, later, .cons less rfl answered (by rw [if_neg below]; exact onward)⟩
      · exact ⟨low, [], state, .nil items step probe low state⟩

/-- What a search comes to: its answer, what was asked and answered, and the state then. -/
structure Seeks (items : List α) (step : Nat) (probe : α → StateM State Ordering) (state : State)
    (answer : Seek) (asked : List (Fin (items.length / max step 1) × Ordering)) (later : State) :
    Prop where
  stops : (seekBy items step probe).run.run state = (.ok answer, later)
  called : Called (fun record => probe (leading items step record)) state asked later
  /-- The record that is found was asked about last, and matched. -/
  matched : ∀ {index : Nat}, answer = .found index → ∃ record : Fin (items.length / max step 1),
    index = record * max step 1 ∧ asked.getLast? = some (record, .eq)
  /-- If the answers run up, the first level record is found, or else the place between. -/
  answer_eq : ∀ {less equal : Nat}, less + equal ≤ items.length / max step 1 →
    (∀ call ∈ asked, call.2 = standing less equal call.1) →
    answer = if 0 < equal then .found (less * max step 1) else .missing (less * max step 1)

/-- The bisection stops at a whole record: it is asked about, and found if it matches. -/
theorem Bisects.seeks_of_lt {border : Nat} {next : State}
    {asked : List (Fin (items.length / max step 1) × Ordering)}
    (bisects : Bisects items step probe 0 (items.length / max step 1) state border asked next)
    (whole : border < items.length / max step 1) {answer : Ordering}
    (answered : (probe (leading items step ⟨border, whole⟩)).run next = (answer, later)) :
    Seeks items step probe state
      (if answer == .eq then .found (border * max step 1) else .missing (border * max step 1))
      (asked ++ [(⟨border, whole⟩, answer)]) later where
  stops := by
    rw [seekBy_eq, run_bind_of_ok _ bisects.stops, dif_pos whole, run_liftM_bind_state, answered]
    rfl
  called := bisects.called.append (.cons answered .nil)
  matched := by
    intro index found
    split at found
    next isMatch =>
      refine ⟨⟨border, whole⟩, (Seek.found.inj found).symm, ?_⟩
      rw [List.getLast?_concat, eq_of_beq isMatch]
    next => contradiction
  answer_eq := by
    intro less equal fits running
    obtain rfl : border = less := bisects.border_eq (Nat.zero_le _) (by omega) fun call member =>
      running call (List.mem_append_left _ member)
    have last : answer = standing border equal border :=
      running _ (List.mem_append_right asked (List.mem_singleton_self _))
    by_cases level : 0 < equal
    · rw [last, standing_self_eq_iff.mpr level, if_pos level]
      rfl
    · have refused : (answer == Ordering.eq) = false :=
        beq_false_of_ne fun isMatch => level (standing_self_eq_iff.mp (last ▸ isMatch))
      rw [refused, if_neg level]
      rfl

/-- The bisection stops behind the whole records: nothing is found. -/
theorem Bisects.seeks_of_not_lt {border : Nat}
    {asked : List (Fin (items.length / max step 1) × Ordering)}
    (bisects : Bisects items step probe 0 (items.length / max step 1) state border asked later)
    (past : ¬border < items.length / max step 1) :
    Seeks items step probe state (.missing (border * max step 1)) asked later where
  stops := by
    rw [seekBy_eq, run_bind_of_ok _ bisects.stops, dif_neg past]
    rfl
  called := bisects.called
  matched := fun found => by contradiction
  answer_eq := by
    intro less equal fits running
    obtain rfl : border = less := bisects.border_eq (Nat.zero_le _) (by omega) running
    rw [if_neg (by omega)]

/-- Every search by a probe that may remember comes to an end, and never missteps. -/
theorem exists_seeks (items : List α) (step : Nat) (probe : α → StateM State Ordering)
    (state : State) : ∃ answer asked later, Seeks items step probe state answer asked later := by
  obtain ⟨border, asked, next, bisects⟩ := exists_bisects items step probe
    (Nat.zero_le (items.length / max step 1)) (Nat.le_refl _) state
  by_cases whole : border < items.length / max step 1
  · exact ⟨_, _, _, bisects.seeks_of_lt whole rfl⟩
  · exact ⟨_, _, _, bisects.seeks_of_not_lt whole⟩

end Answers

end Guarded

/-! ## Inserting a record -/

namespace Records

variable {α : Type}

/-- The leading elements of the whole records. -/
def wholeLeads (step : Nat) (items : List α) : List α :=
  (List.finRange (items.length / max step 1)).map (leading items step)

theorem getElem?_wholeLeads {step : Nat} {items : List α} {record : Nat}
    (whole : record < items.length / max step 1) :
    (wholeLeads step items)[record]? = items[record * max step 1]? := by
  rw [wholeLeads, List.getElem?_map, List.getElem?_eq_getElem (by rwa [List.length_finRange]),
    List.getElem_finRange]
  exact (getElem?_leading items step ⟨record, whole⟩).symm

theorem length_wholeLeads (step : Nat) (items : List α) :
    (wholeLeads step items).length = items.length / max step 1 := by
  rw [wholeLeads, List.length_map, List.length_finRange]

/-- A record in front of the record of a number. -/
def insertRecord (items : List α) (step record : Nat) (inserted : List α) : List α :=
  items.take (record * max step 1) ++ inserted ++ items.drop (record * max step 1)

section Insertion

variable {items inserted : List α} {step record number : Nat}

theorem length_take_records (within : record ≤ items.length / max step 1) :
    (items.take (record * max step 1)).length = record * max step 1 := by
  have before : record * max step 1 ≤ items.length :=
    Nat.le_trans (Nat.mul_le_mul_right _ within) (Nat.div_mul_le_self _ _)
  rw [List.length_take, Nat.min_eq_left before]

theorem length_insertRecord (within : record ≤ items.length / max step 1)
    (width : inserted.length = max step 1) :
    (insertRecord items step record inserted).length / max step 1 =
      items.length / max step 1 + 1 := by
  have front := length_take_records within
  have before : record * max step 1 ≤ items.length := by
    rw [← front, List.length_take]
    exact Nat.min_le_right _ _
  have length : (insertRecord items step record inserted).length =
      items.length + max step 1 := by
    rw [insertRecord, List.length_append, List.length_append, front, width, List.length_drop]
    omega
  rw [length, Nat.add_div_right _ (by omega)]

/-- The records in front of the one that is inserted stay where they are. -/
theorem getElem?_insertRecord_before (within : record ≤ items.length / max step 1)
    (before : number < record) :
    (insertRecord items step record inserted)[number * max step 1]? =
      items[number * max step 1]? := by
  have front := length_take_records within
  have inside : number * max step 1 < record * max step 1 :=
    Nat.mul_lt_mul_of_pos_right before (by omega)
  rw [insertRecord, List.append_assoc, List.getElem?_append_left (by rw [front]; exact inside),
    List.getElem?_take_of_lt inside]

theorem getElem?_insertRecord_self (within : record ≤ items.length / max step 1)
    (width : inserted.length = max step 1) :
    (insertRecord items step record inserted)[record * max step 1]? = inserted.head? := by
  have front := length_take_records within
  rw [insertRecord, List.append_assoc, List.getElem?_append_right (Nat.le_of_eq front), front,
    Nat.sub_self, List.getElem?_append_left (by omega), List.head?_eq_getElem?]

/-- The records behind it make room for one. -/
theorem getElem?_insertRecord_after (within : record ≤ items.length / max step 1)
    (width : inserted.length = max step 1) (after : record ≤ number) :
    (insertRecord items step record inserted)[(number + 1) * max step 1]? =
      items[number * max step 1]? := by
  have front : (items.take (record * max step 1) ++ inserted).length =
      record * max step 1 + max step 1 := by
    rw [List.length_append, length_take_records within, width]
  have order : record * max step 1 ≤ number * max step 1 := Nat.mul_le_mul_right _ after
  have next : (number + 1) * max step 1 = number * max step 1 + max step 1 := Nat.succ_mul _ _
  rw [insertRecord, List.getElem?_append_right (by omega), List.getElem?_drop]
  congr 1
  omega

/-- Inserting a record inserts its leading element.  What is left over stays at the end. -/
theorem wholeLeads_insertRecord (within : record ≤ items.length / max step 1)
    (width : inserted.length = max step 1) {key : α} (keyed : inserted.head? = some key) :
    wholeLeads step (insertRecord items step record inserted) =
      (wholeLeads step items).take record ++ key :: (wholeLeads step items).drop record := by
  have count := length_insertRecord within width
  have leads := length_wholeLeads step items
  have front : ((wholeLeads step items).take record).length = record := by
    rw [List.length_take, leads, Nat.min_eq_left within]
  apply List.ext_getElem?
  intro number
  by_cases inside : number < items.length / max step 1 + 1
  · rw [getElem?_wholeLeads (by rw [count]; exact inside)]
    rcases Nat.lt_trichotomy number record with before | rfl | after
    · rw [getElem?_insertRecord_before within before,
        List.getElem?_append_left (by rw [front]; exact before), List.getElem?_take_of_lt before,
        getElem?_wholeLeads (by omega)]
    · rw [getElem?_insertRecord_self within width, keyed,
        List.getElem?_append_right (Nat.le_of_eq front), front, Nat.sub_self,
        List.getElem?_cons_zero]
    · obtain ⟨earlier, rfl⟩ := Nat.exists_eq_add_of_lt after
      rw [getElem?_insertRecord_after within width (by omega),
        List.getElem?_append_right (by omega), front, Nat.add_assoc, Nat.add_sub_cancel_left,
        List.getElem?_cons_succ, List.getElem?_drop, getElem?_wholeLeads (by omega)]
  · rw [List.getElem?_eq_none (by rw [length_wholeLeads, count]; omega),
      List.getElem?_eq_none (by
        rw [List.length_append, front, List.length_cons, List.length_drop, leads]
        omega)]

end Insertion

/-- The whole records are `less` that are below the key, then `equal` that are level with it, then
`greater` that are above. -/
def WholeRunUp (step : Nat) (items : List α) (probe : α → Ordering) (less equal greater : Nat) :
    Prop :=
  (wholeLeads step items).map probe =
    List.replicate less .lt ++ List.replicate equal .eq ++ List.replicate greater .gt

variable {step less equal greater : Nat} {items : List α} {probe : α → Ordering}

theorem WholeRunUp.count (runs : WholeRunUp step items probe less equal greater) :
    less + equal + greater = items.length / max step 1 := by
  have lengths := congrArg List.length runs
  rw [List.length_map, length_wholeLeads, List.length_append, List.length_append,
    List.length_replicate, List.length_replicate, List.length_replicate] at lengths
  exact lengths.symm

theorem WholeRunUp.leading_eq (runs : WholeRunUp step items probe less equal greater)
    (record : Fin (items.length / max step 1)) :
    probe (leading items step record) = standing less equal record := by
  have count := runs.count
  have within := record.isLt
  have answer := congrArg (fun answers => answers[record.val]?) runs
  rw [List.getElem?_map, getElem?_wholeLeads within, getElem?_leading, Option.map_some,
    List.getElem?_append, List.getElem?_append, List.getElem?_replicate, List.getElem?_replicate,
    List.getElem?_replicate, List.length_append, List.length_replicate, List.length_replicate]
    at answer
  unfold standing
  split
  next below =>
    rw [if_pos (by omega), if_pos below, if_pos below] at answer
    exact Option.some.inj answer
  next notBelow =>
    split
    next level =>
      rw [if_pos level, if_neg notBelow, if_pos (by omega)] at answer
      exact Option.some.inj answer
    next above =>
      rw [if_neg above, if_pos (by omega)] at answer
      exact Option.some.inj answer

/-- With no level record, inserting one with the key behind those below makes it the level one. -/
theorem WholeRunUp.insertRecord (runs : WholeRunUp step items probe less 0 greater)
    {inserted : List α} (width : inserted.length = max step 1) {key : α}
    (keyed : inserted.head? = some key) (level : probe key = .eq) :
    WholeRunUp step (insertRecord items step less inserted) probe less 1 greater := by
  have count := runs.count
  unfold WholeRunUp at runs ⊢
  rw [wholeLeads_insertRecord (by omega) width keyed, List.map_append, List.map_cons,
    List.map_take, List.map_drop, runs, level, List.replicate_zero, List.append_nil,
    List.take_left' List.length_replicate, List.drop_left' List.length_replicate,
    List.append_assoc]
  rfl

/-- Inserting a record there keeps an order of the leading elements in which the key follows what is
below it and comes before what is above it. -/
theorem WholeRunUp.pairwise_insertRecord (runs : WholeRunUp step items probe less 0 greater)
    {inserted : List α} (width : inserted.length = max step 1) {key : α}
    (keyed : inserted.head? = some key) {precedes : α → α → Prop}
    (ordered : (wholeLeads step items).Pairwise precedes)
    (below : ∀ element, probe element = .lt → precedes element key)
    (above : ∀ element, probe element = .gt → precedes key element) :
    (wholeLeads step (Records.insertRecord items step less inserted)).Pairwise precedes := by
  have count := runs.count
  have cut := List.take_append_drop less (wholeLeads step items)
  have front : ∀ element ∈ (wholeLeads step items).take less, probe element = .lt := by
    intro element member
    have answer := List.mem_map_of_mem (f := probe) member
    rw [List.map_take, runs, List.replicate_zero, List.append_nil,
      List.take_left' List.length_replicate] at answer
    exact List.eq_of_mem_replicate answer
  have back : ∀ element ∈ (wholeLeads step items).drop less, probe element = .gt := by
    intro element member
    have answer := List.mem_map_of_mem (f := probe) member
    rw [List.map_drop, runs, List.replicate_zero, List.append_nil,
      List.drop_left' List.length_replicate] at answer
    exact List.eq_of_mem_replicate answer
  rw [← cut, List.pairwise_append] at ordered
  obtain ⟨before, after, across⟩ := ordered
  rw [wholeLeads_insertRecord (by omega) width keyed, List.pairwise_append, List.pairwise_cons]
  refine ⟨before, ⟨fun element member => above element (back element member), after⟩, ?_⟩
  intro element member other otherMember
  cases List.mem_cons.mp otherMember with
  | inl isKey => exact isKey ▸ below element (front element member)
  | inr behind => exact across element member other behind

/-- The search by a probe without effects, with what it asked. -/
theorem exists_seeks_pure (items : List α) (step : Nat) (probe : α → Ordering) :
    ∃ asked, Guarded.Seeks items step (fun item => (pure (probe item) : StateM Unit Ordering)) ()
      (seek items step probe) asked () ∧
      ∀ call ∈ asked, call.2 = probe (leading items step call.1) := by
  obtain ⟨answer, asked, later, seeks⟩ := Guarded.exists_seeks items step
    (fun item => (pure (probe item) : StateM Unit Ordering)) ()
  have stops := seeks.stops
  rw [Guarded.seekBy_pure] at stops
  obtain rfl : seek items step probe = answer := Except.ok.inj (congrArg Prod.fst stops)
  exact ⟨asked, seeks, seeks.called.answered⟩

/-- Searching a list of records for a key.

By whatever probe, with or without a memory, the search comes to an end, asks about whole records
only, and finds a record only if the last answer was that it matches.  A step of zero counts as one.
If the answers run from below over level to above, it finds the first level record, or else the
place behind those below; a record that is inserted there keeps the order. -/
theorem seek_visits_whole_records (items : List α) (step : Nat) :
    (∀ {State : Type} (probe : α → StateM State Ordering) (state : State),
      ∃ answer asked later, Guarded.Seeks items step probe state answer asked later) ∧
    ∀ probe : α → Ordering,
      (∀ {m : Type → Type} [Monad m] [LawfulMonad m],
        Guarded.seekBy items step (fun item => pure (probe item)) =
          (pure (seek items step probe) : Guarded m Seek)) ∧
      (∀ index, seek items step probe = .found index →
        ∃ record : Fin (items.length / max step 1), index = record.val * max step 1 ∧
          ∃ element, items[index]? = some element ∧ probe element = .eq) ∧
      ∀ less equal greater, WholeRunUp step items probe less equal greater →
        (seek items step probe =
          if 0 < equal then .found (less * max step 1) else .missing (less * max step 1)) ∧
        (equal = 0 → ∀ inserted key, inserted.length = max step 1 → inserted.head? = some key →
          (probe key = .eq →
            WholeRunUp step (insertRecord items step less inserted) probe less 1 greater) ∧
          ∀ precedes : α → α → Prop, (wholeLeads step items).Pairwise precedes →
            (∀ element, probe element = .lt → precedes element key) →
            (∀ element, probe element = .gt → precedes key element) →
            (wholeLeads step (insertRecord items step less inserted)).Pairwise precedes) := by
  refine ⟨fun probe state => Guarded.exists_seeks items step probe state, ?_⟩
  intro probe
  obtain ⟨asked, seeks, answered⟩ := exists_seeks_pure items step probe
  refine ⟨Guarded.seekBy_pure items step probe, ?_, ?_⟩
  · intro index found
    obtain ⟨record, place, last⟩ := seeks.matched found
    have answer : Ordering.eq = probe (leading items step record) :=
      answered _ (List.mem_of_getLast? last)
    exact ⟨record, place, leading items step record, place ▸ getElem?_leading items step record,
      answer.symm⟩
  · intro less equal greater runs
    have count := runs.count
    refine ⟨?_, ?_⟩
    · exact seeks.answer_eq (by omega) fun call member =>
        (answered call member).trans (runs.leading_eq call.1)
    · rintro rfl inserted key width keyed
      exact ⟨runs.insertRecord width keyed, fun precedes => runs.pairwise_insertRecord width keyed⟩

/-- Records of two, with one number left over. -/
def ragged : List Nat :=
  [10, 100, 20, 200, 20, 201, 30, 300, 7]

/-- A key that is there is found where it first is.  One that is not is inserted behind what is
below it, and the leading numbers stay in order. -/
theorem record_is_inserted_behind_equals :
    WholeRunUp 2 ragged (compare · 20) 1 2 1 ∧ seek ragged 2 (compare · 20) = .found 2 ∧
    (∃ record : Fin (ragged.length / max 2 1), 2 = record.val * max 2 1 ∧
      ∃ element, ragged[2]? = some element ∧ compare element 20 = .eq) ∧
    WholeRunUp 2 ragged (compare · 25) 3 0 1 ∧ seek ragged 2 (compare · 25) = .missing 6 ∧
    [25, 0].length = max 2 1 ∧ [25, 0].head? = some 25 ∧ compare 25 25 = Ordering.eq ∧
    insertRecord ragged 2 3 [25, 0] = [10, 100, 20, 200, 20, 201, 25, 0, 30, 300, 7] ∧
    WholeRunUp 2 (insertRecord ragged 2 3 [25, 0]) (compare · 25) 3 1 1 ∧
    (wholeLeads 2 ragged).Pairwise (· ≤ ·) ∧
    (wholeLeads 2 (insertRecord ragged 2 3 [25, 0])).Pairwise (· ≤ ·) := by
  obtain ⟨level, missing, ordered, longer⟩ :
      (wholeLeads 2 ragged).map (compare · 20) = [.lt, .eq, .eq, .gt] ∧
      (wholeLeads 2 ragged).map (compare · 25) = [.lt, .lt, .lt, .gt] ∧
      (wholeLeads 2 ragged).Pairwise (· ≤ ·) ∧
      insertRecord ragged 2 3 [25, 0] = [10, 100, 20, 200, 20, 201, 25, 0, 30, 300, 7] := by
    decide +kernel
  obtain ⟨-, searches⟩ := seek_visits_whole_records ragged 2
  obtain ⟨-, whole, runs⟩ := searches (compare · 20)
  have found : seek ragged 2 (compare · 20) = .found 2 := (runs 1 2 1 level).1
  obtain ⟨-, -, runs'⟩ := searches (compare · 25)
  obtain ⟨absent, inserting⟩ := runs' 3 0 1 missing
  have keeps := inserting rfl [25, 0] 25 rfl rfl
  have below (element : Nat) (less : compare element 25 = .lt) : element ≤ 25 :=
    Nat.le_of_lt (Nat.compare_eq_lt.mp less)
  have above (element : Nat) (greater : compare element 25 = .gt) : 25 ≤ element :=
    Nat.le_of_lt (Nat.compare_eq_gt.mp greater)
  exact ⟨level, found, whole 2 found, missing, absent, rfl, rfl, rfl, longer, keeps.1 rfl, ordered,
    keeps.2 (· ≤ ·) ordered below above⟩

end Records

end CountedHeap
