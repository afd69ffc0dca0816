import CountedHeap.Proofs.GuardedSort
import CountedHeap.Proofs.Probing
import CountedHeap.Proofs.Questions

/-!
Contract: sorting a slice in place by a comparator that may fail and may remember.

The slice is sorted in two copies and written back at the end.  What the sort does depends on its
comparator through the answers alone, so the sort is a plan: a tree of questions with a list at each
leaf.

Owns:
- plans, and that every merge sort runs one plan, in whatever monad;
- the leaves of this plan are permutations;
- the sort of a slice by guarded steps: it ends for every comparator, a failure is the last call and
  leaves the slice as it was, and answers that order the items give a stable sort.
-/

namespace CountedHeap

namespace Records

/-! ## Plans -/

/-- Questions whether one element precedes another, and what follows from the answers. -/
inductive Plan (α β : Type) : Type where
  | done (result : β)
  | ask (left right : α) (next : Bool → Plan α β)

namespace Plan

variable {α β γ : Type}

/-- A plan, and then another one. -/
def bind : Plan α β → (β → Plan α γ) → Plan α γ
  | done result, next => next result
  | ask left right rest, next => ask left right fun answer => (rest answer).bind next

instance : Monad (Plan α) where
  pure := done
  bind := bind

/-- A single question. -/
def question (left right : α) : Plan α Bool :=
  ask left right done

section Run

variable {m : Type → Type} [Monad m]

/-- Ask the questions of a plan. -/
def run (precedes : α → α → m Bool) : Plan α β → m β
  | done result => pure result
  | ask left right next => precedes left right >>= fun answer => (next answer).run precedes

variable [LawfulMonad m] (precedes : α → α → m Bool)

theorem run_bind (plan : Plan α β) (next : β → Plan α γ) :
    (plan >>= next).run precedes =
      plan.run precedes >>= fun result => (next result).run precedes := by
  induction plan with
  | done result => exact (pure_bind result fun result => (next result).run precedes).symm
  | ask left right rest inductionHypothesis =>
      show (precedes left right >>= fun answer => ((rest answer).bind next).run precedes) =
        (precedes left right >>= fun answer => (rest answer).run precedes) >>= _
      rw [bind_assoc]
      exact bind_congr inductionHypothesis

theorem run_question (left right : α) :
    (question left right).run precedes = precedes left right :=
  bind_pure (precedes left right)

theorem run_mergeM (earlier later : List α) :
    (mergeM question earlier later).run precedes = mergeM precedes earlier later := by
  fun_induction mergeM precedes earlier later with
  | case1 later =>
      rw [mergeM]
      rfl
  | case2 earlier nonempty =>
      rw [mergeM]
      · rfl
      · exact nonempty
  | case3 first earlier second later laterFirst earlierFirst =>
      rw [mergeM, run_bind, run_question]
      refine bind_congr fun answer => ?_
      cases answer with
      | true =>
          show ((mergeM question (first :: earlier) later >>= fun merged =>
            pure (second :: merged)) : Plan α (List α)).run precedes = _
          rw [run_bind, laterFirst]
          rfl
      | false =>
          show ((mergeM question earlier (second :: later) >>= fun merged =>
            pure (first :: merged)) : Plan α (List α)).run precedes = _
          rw [run_bind, earlierFirst]
          rfl

theorem run_mergePairsM (runs : List (List α)) :
    (mergePairsM question runs).run precedes = mergePairsM precedes runs := by
  fun_induction mergePairsM precedes runs with
  | case1 first second rest inductionHypothesis =>
      rw [mergePairsM, run_bind, run_mergeM]
      refine bind_congr fun merged => ?_
      rw [run_bind, inductionHypothesis]
      rfl
  | case2 runs notPair =>
      rw [mergePairsM]
      · rfl
      · exact notPair

theorem run_mergeRunsM (count : Nat) (runs : List (List α)) :
    (mergeRunsM question count runs).run precedes = mergeRunsM precedes count runs := by
  induction count using Nat.strong_induction_on generalizing runs with
  | _ count inductionHypothesis =>
      rw [mergeRunsM, mergeRunsM]
      split
      next many =>
        rw [run_bind, run_mergePairsM]
        exact bind_congr fun merged => inductionHypothesis _ (by omega) merged
      next => rfl

/-- Every merge sort asks the questions of one plan. -/
theorem run_mergeSortM (items : List α) :
    (mergeSortM question items).run precedes = mergeSortM precedes items :=
  run_mergeRunsM precedes _ _

end Run

/-! ## What all leaves have in common -/

/-- A plan asks about good elements only, and whatever it is answered, `post` holds of the
result. -/
def Keeps (good : α → Prop) (post : β → Prop) : Plan α β → Prop
  | done result => post result
  | ask left right next => good left ∧ good right ∧ ∀ answer, (next answer).Keeps good post

variable {good : α → Prop} {post : β → Prop} {post' : γ → Prop}

theorem Keeps.bind {plan : Plan α β} {next : β → Plan α γ} (keeps : plan.Keeps good post)
    (onward : ∀ result, post result → (next result).Keeps good post') :
    (plan >>= next).Keeps good post' := by
  induction plan with
  | done result => exact onward result keeps
  | ask left right rest inductionHypothesis =>
      obtain ⟨goodLeft, goodRight, others⟩ := keeps
      exact ⟨goodLeft, goodRight, fun answer => inductionHypothesis answer (others answer)⟩

theorem Keeps.mono {plan : Plan α β} {weaker : β → Prop} (keeps : plan.Keeps good post)
    (implies : ∀ result, post result → weaker result) : plan.Keeps good weaker := by
  induction plan with
  | done result => exact implies result keeps
  | ask left right rest inductionHypothesis =>
      obtain ⟨goodLeft, goodRight, others⟩ := keeps
      exact ⟨goodLeft, goodRight, fun answer => inductionHypothesis answer (others answer)⟩

theorem keeps_question {left right : α} (goodLeft : good left) (goodRight : good right) :
    (question left right).Keeps good fun _ => True :=
  ⟨goodLeft, goodRight, fun _ => trivial⟩

theorem keeps_mergeM (earlier later : List α) :
    (∀ item ∈ earlier, good item) → (∀ item ∈ later, good item) →
      (mergeM question earlier later).Keeps good fun merged => merged.Perm (earlier ++ later) := by
  fun_induction mergeM (m := Plan α) question earlier later with
  | case1 later => exact fun _ _ => .refl _
  | case2 earlier nonempty =>
      intro _ _
      show earlier.Perm (earlier ++ [])
      rw [List.append_nil]
  | case3 first earlier second later laterFirst earlierFirst =>
      intro goodEarlier goodLater
      obtain ⟨goodFirst, goodFront⟩ := List.forall_mem_cons.mp goodEarlier
      obtain ⟨goodSecond, goodBack⟩ := List.forall_mem_cons.mp goodLater
      apply (keeps_question goodSecond goodFirst).bind
      intro answer _
      cases answer with
      | true =>
          apply (laterFirst goodEarlier goodBack).bind
          intro merged perm
          exact (perm.cons second).trans List.perm_middle.symm
      | false =>
          apply (earlierFirst goodFront goodLater).bind
          intro merged perm
          exact perm.cons first

theorem keeps_mergePairsM (runs : List (List α)) :
    (∀ run ∈ runs, ∀ item ∈ run, good item) →
      (mergePairsM question runs).Keeps good fun merged => merged.flatten.Perm runs.flatten := by
  fun_induction mergePairsM (m := Plan α) question runs with
  | case1 first second rest inductionHypothesis =>
      intro goodRuns
      obtain ⟨goodFirst, goodOthers⟩ := List.forall_mem_cons.mp goodRuns
      obtain ⟨goodSecond, goodRest⟩ := List.forall_mem_cons.mp goodOthers
      apply (keeps_mergeM first second goodFirst goodSecond).bind
      intro merged perm
      apply (inductionHypothesis goodRest).bind
      intro others permOthers
      show (merged :: others).flatten.Perm (first :: second :: rest).flatten
      rw [List.flatten_cons, List.flatten_cons, List.flatten_cons, ← List.append_assoc]
      exact perm.append permOthers
  | case2 runs notPair => exact fun _ => .refl _

theorem keeps_mergeRunsM (count : Nat) (runs : List (List α))
    (goodRuns : ∀ run ∈ runs, ∀ item ∈ run, good item) :
    (mergeRunsM question count runs).Keeps good fun sorted => sorted.Perm runs.flatten := by
  induction count using Nat.strong_induction_on generalizing runs with
  | _ count inductionHypothesis =>
      rw [mergeRunsM]
      split
      next many =>
        apply (keeps_mergePairsM runs goodRuns).bind
        intro merged perm
        have onward := inductionHypothesis ((count + 1) / 2) (by omega) merged
          (forall_mem_of_perm goodRuns perm)
        exact onward.mono fun sorted sortedPerm => sortedPerm.trans perm
      next => exact .refl _

/-- The plan of a sort asks about the items only, and every leaf is a permutation of them. -/
theorem keeps_mergeSortM (items : List α) :
    (mergeSortM question items).Keeps (· ∈ items) fun sorted => sorted.Perm items := by
  have inside : ∀ run ∈ items.map ([·]), ∀ item ∈ run, item ∈ items :=
    forall_mem_singletons fun _ member => member
  have keeps := keeps_mergeRunsM items.length (items.map ([·])) inside
  rwa [← runsOf_one, flatten_runsOf Nat.one_pos, runsOf_one] at keeps

end Plan

/-! ## Comparators -/

section Comparators

variable {α β ε State : Type}

/-- A comparator as a function of two elements at once. -/
def comparing (compare : α → α → ExceptT ε (StateM State) Ordering) (pair : α × α) :
    StateM State (Except ε Ordering) :=
  (compare pair.1 pair.2).run

/-- Whether an element precedes another by a comparator. -/
def asks (compare : α → α → ExceptT ε (StateM State) Ordering) (left right : α) :
    ExceptT ε (StateM State) Bool := do
  return (← compare left right) == .lt

/-- None of the calls failed. -/
def AllAnswered (calls : List ((α × α) × Except ε Ordering)) : Prop :=
  ∀ call ∈ calls, ∃ answer, call.2 = .ok answer

/-- The answers of a comparator say which elements precede which. -/
def AgreesWith (precedes : α → α → Bool) (calls : List ((α × α) × Except ε Ordering)) : Prop :=
  ∀ call ∈ calls, ∀ answer, call.2 = .ok answer → precedes call.1.1 call.1.2 = (answer == .lt)

variable {compare : α → α → ExceptT ε (StateM State) Ordering} {good : α → Prop}
  {post : β → Prop} {plan : Plan α β} {state later : State}

/-- What a plan comes to by a comparator.  If every call is answered, so is the plan, and answers
that say which elements precede which decide the result.  A call that fails is the last. -/
inductive Plan.Ends (compare : α → α → ExceptT ε (StateM State) Ordering) (good : α → Prop)
    (post : β → Prop) (plan : Plan α β) (state : State) :
    List ((α × α) × Except ε Ordering) → State → Prop
  | answered {calls : List ((α × α) × Except ε Ordering)} {later : State} {result : β}
      (called : Called (comparing compare) state calls later)
      (about : ∀ call ∈ calls, good call.1.1 ∧ good call.1.2)
      (all : AllAnswered calls)
      (ran : (plan.run (asks compare)).run.run state = (.ok result, later))
      (holds : post result)
      (settled : ∀ precedes, AgreesWith precedes calls → plan.run (m := Id) precedes = result) :
      Plan.Ends compare good post plan state calls later
  | failed {calls : List ((α × α) × Except ε Ordering)} {later : State} {pair : α × α} {error : ε}
      (called : Called (comparing compare) state (calls ++ [(pair, .error error)]) later)
      (about : ∀ call ∈ calls ++ [(pair, .error error)], good call.1.1 ∧ good call.1.2)
      (all : AllAnswered calls)
      (ran : (plan.run (asks compare)).run.run state = (.error error, later)) :
      Plan.Ends compare good post plan state (calls ++ [(pair, .error error)]) later

/-- An answer is what comes next; a failure is the end. -/
theorem run_bind_of_outcome {γ : Type} (action : ExceptT ε (StateM State) β)
    (next : β → ExceptT ε (StateM State) γ) (state : State) :
    (action >>= next).run.run state =
      match action.run.run state with
      | (.ok answer, between) => (next answer).run.run between
      | (.error error, between) => (.error error, between) := by
  show (ExceptT.bindCont next (action.run.run state).1).run (action.run.run state).2 = _
  cases action.run.run state with
  | mk outcome between => cases outcome <;> rfl

/-- What the first call comes to decides how the plan goes on. -/
theorem Plan.run_ask (compare : α → α → ExceptT ε (StateM State) Ordering) (left right : α)
    (next : Bool → Plan α β) (state : State) :
    ((Plan.ask left right next).run (asks compare)).run.run state =
      match (comparing compare (left, right)).run state with
      | (.ok answer, between) => ((next (answer == .lt)).run (asks compare)).run.run between
      | (.error error, between) => (.error error, between) := by
  show (asks compare left right >>= fun answer => (next answer).run (asks compare)).run.run state =
    _
  rw [run_bind_of_outcome, asks, run_bind_of_outcome]
  simp only [comparing]
  cases (compare left right).run.run state with
  | mk outcome between => cases outcome <;> rfl

/-- Every plan comes to an end, whatever the comparator does. -/
theorem Plan.Keeps.exists_ends (keeps : plan.Keeps good post)
    (compare : α → α → ExceptT ε (StateM State) Ordering) (state : State) :
    ∃ calls later, plan.Ends compare good post state calls later := by
  induction plan generalizing state with
  | done result =>
      exact ⟨[], state, .answered .nil (fun _ member => absurd member List.not_mem_nil)
        (fun _ member => absurd member List.not_mem_nil) rfl keeps fun _ _ => rfl⟩
  | ask left right next inductionHypothesis =>
      obtain ⟨goodLeft, goodRight, others⟩ := keeps
      have ran := Plan.run_ask compare left right next state
      cases called : (comparing compare (left, right)).run state with
      | mk outcome between =>
          rw [called] at ran
          cases outcome with
          | error error =>
              exact ⟨[] ++ [((left, right), .error error)], between,
                .failed (.cons called .nil)
                  (List.forall_mem_singleton.mpr ⟨goodLeft, goodRight⟩)
                  (fun _ member => absurd member List.not_mem_nil) ran⟩
          | ok answer =>
              obtain ⟨calls, later, ends⟩ := inductionHypothesis _ (others (answer == .lt)) between
              cases ends with
              | answered calledOn about all ranOn holds settled =>
                  refine ⟨_, later, .answered (.cons called calledOn)
                    (List.forall_mem_cons.mpr ⟨⟨goodLeft, goodRight⟩, about⟩)
                    (List.forall_mem_cons.mpr ⟨⟨answer, rfl⟩, all⟩) (ran.trans ranOn) holds ?_⟩
                  intro precedes agrees
                  obtain ⟨here, others⟩ := List.forall_mem_cons.mp agrees
                  show (next (precedes left right)).run (m := Id) precedes = _
                  rw [here answer rfl]
                  exact settled precedes others
              | @failed calls pair error later calledOn about all ranOn =>
                  have allBefore : AllAnswered (((left, right), .ok answer) :: calls) :=
                    List.forall_mem_cons.mpr ⟨⟨answer, rfl⟩, all⟩
                  exact ⟨_, _, .failed (.cons called calledOn)
                    (List.forall_mem_cons.mpr ⟨⟨goodLeft, goodRight⟩, about⟩) allBefore
                    (ran.trans ranOn)⟩

end Comparators

/-! ## Sorting in place -/

section Slices

variable {α β γ ε State : Type}

/-- Steps on a slice, beside calls that have a state of their own and can fail. -/
abbrev Slicing (α ε State : Type) : Type → Type :=
  Guarded (ExceptT ε (StateT (List α) (StateM State)))

/-- What steps come to, from a slice and a state. -/
def Slicing.outcome (action : Slicing α ε State β) (slice : List α) (state : State) :
    (Except ε (Except Misstep β) × List α) × State :=
  (action.run.run.run slice).run state

/-- The result or the failure of a call, beside a slice. -/
def keeping (slice : List α) (ran : Except ε β × State) :
    (Except ε (Except Misstep β) × List α) × State :=
  ((ran.1.map .ok, slice), ran.2)

/-- A call leaves the slice alone. -/
def beside (action : ExceptT ε (StateM State) β) : Slicing α ε State β :=
  ExceptT.mk (ExceptT.mk fun slice state => keeping slice (action.run.run state))

/-- Sort the slice: from one copy into another and back, and over the slice at the end. -/
def sortSlice (compare : α → α → ExceptT ε (StateM State) Ordering) : Slicing α ε State Unit := do
  let slice ← get
  if slice.length < 2 then return ()
  else
    let sorted ← Guarded.mergePasses (fun left right => beside (asks compare left right))
      slice.length 0 slice slice
    set (← Guarded.copy (← get) 0 sorted 0 slice.length)

section Outcomes

variable {first : Slicing α ε State β} {slice slice' : List α} {state later : State}

/-- What comes to a result, and then what follows. -/
theorem Slicing.outcome_bind (next : β → Slicing α ε State γ) {result : β}
    (ran : Slicing.outcome first slice state = ((.ok (.ok result), slice'), later)) :
    Slicing.outcome (first >>= next) slice state =
      Slicing.outcome (next result) slice' later := by
  unfold Slicing.outcome at ran ⊢
  rw [ExceptT.run_bind, ExceptT.run_bind, StateT.run_bind, StateT.run_bind]
  simp only [ran]
  rfl

/-- What fails is the end. -/
theorem Slicing.outcome_bind_of_error (next : β → Slicing α ε State γ) {error : ε}
    (ran : Slicing.outcome first slice state = ((.error error, slice'), later)) :
    Slicing.outcome (first >>= next) slice state = ((.error error, slice'), later) := by
  unfold Slicing.outcome at ran ⊢
  rw [ExceptT.run_bind, ExceptT.run_bind, StateT.run_bind, StateT.run_bind]
  simp only [ran]
  rfl

end Outcomes

/-- Beside a slice a plan comes to what it comes to alone. -/
theorem Plan.outcome_run (compare : α → α → ExceptT ε (StateM State) Ordering) (plan : Plan α β)
    (slice : List α) (state : State) :
    Slicing.outcome (plan.run fun left right => beside (asks compare left right)) slice state =
      keeping slice ((plan.run (asks compare)).run.run state) := by
  induction plan generalizing state with
  | done result => rfl
  | ask left right next inductionHypothesis =>
      show Slicing.outcome (beside (asks compare left right) >>= fun answer => _) slice state =
        keeping slice ((asks compare left right >>= fun answer => _).run.run state)
      rw [run_bind_of_outcome]
      have here : Slicing.outcome (beside (asks compare left right)) slice state =
        keeping slice ((asks compare left right).run.run state) := rfl
      cases called : (asks compare left right).run.run state with
      | mk outcome between =>
          rw [called] at here
          cases outcome with
          | error error => exact Slicing.outcome_bind_of_error _ here
          | ok answer =>
              rw [Slicing.outcome_bind _ here]
              exact inductionHypothesis answer between

/-- The passes over two copies come to the merge sort, and a short slice is sorted. -/
theorem sortSlice_eq (compare : α → α → ExceptT ε (StateM State) Ordering) :
    (sortSlice compare : Slicing α ε State Unit) = (do
      let slice ← get
      let sorted ← mergeSortM (fun left right => beside (asks compare left right)) slice
      if slice.length < 2 then return ()
      else set (← Guarded.copy (← get) 0 sorted 0 slice.length)) := by
  unfold sortSlice
  refine bind_congr fun slice => ?_
  unfold mergeSortM
  split
  next short =>
    rw [mergeRunsM, if_neg (by omega), pure_bind]
  next long =>
    have single : Nat.pow 2 0 = 1 := rfl
    rw [Guarded.mergePasses_eq _ rfl rfl, single, Nat.add_sub_cancel, Nat.div_one, runsOf_one]

section Sorted

variable {compare : α → α → ExceptT ε (StateM State) Ordering} {slice sorted : List α}
  {state later : State}

/-- Beside a slice, too, the merge sort is a plan. -/
theorem outcome_mergeSortM (compare : α → α → ExceptT ε (StateM State) Ordering)
    (slice items : List α) (state : State) :
    Slicing.outcome (mergeSortM (fun left right => beside (asks compare left right)) items)
      slice state = keeping slice ((mergeSortM (asks compare) items).run.run state) := by
  have plan := Plan.outcome_run compare (mergeSortM Plan.question items) slice state
  rwa [Plan.run_mergeSortM, Plan.run_mergeSortM] at plan

/-- A short list has one order. -/
theorem eq_of_perm_of_short (short : slice.length < 2) (perm : sorted.Perm slice) :
    sorted = slice := by
  match slice, short with
  | [], _ => exact List.perm_nil.mp perm
  | [item], _ => exact List.perm_singleton.mp perm

/-- A permutation is written over the whole slice. -/
theorem copy_sorted (perm : sorted.Perm slice) :
    Guarded.copy slice 0 sorted 0 slice.length = (pure sorted : Slicing α ε State (List α)) := by
  have length := perm.length_eq
  rw [Guarded.copy_eq (Nat.zero_le _) (by omega) (by omega), Guarded.segment, ← length,
    List.take_length, Nat.sub_zero, Nat.zero_add, length, List.drop_length, List.take_zero,
    List.nil_append, List.append_nil]
  rfl

theorem outcome_sortSlice (perm : sorted.Perm slice)
    (ran : (mergeSortM (asks compare) slice).run.run state = (.ok sorted, later)) :
    Slicing.outcome (sortSlice compare) slice state = ((.ok (.ok ()), sorted), later) := by
  have sorting := outcome_mergeSortM compare slice slice state
  rw [ran] at sorting
  have reading : Slicing.outcome (get : Slicing α ε State (List α)) slice state =
    ((.ok (.ok slice), slice), state) := rfl
  have reading' : Slicing.outcome (get : Slicing α ε State (List α)) slice later =
    ((.ok (.ok slice), slice), later) := rfl
  rw [sortSlice_eq, Slicing.outcome_bind _ reading, Slicing.outcome_bind _ sorting]
  split
  next short =>
    rw [eq_of_perm_of_short short perm]
    rfl
  next long =>
    rw [Slicing.outcome_bind _ reading', copy_sorted perm]
    rfl

theorem outcome_sortSlice_of_error {error : ε}
    (ran : (mergeSortM (asks compare) slice).run.run state = (.error error, later)) :
    Slicing.outcome (sortSlice compare) slice state = ((.error error, slice), later) := by
  have sorting := outcome_mergeSortM compare slice slice state
  rw [ran] at sorting
  have reading : Slicing.outcome (get : Slicing α ε State (List α)) slice state =
    ((.ok (.ok slice), slice), state) := rfl
  rw [sortSlice_eq, Slicing.outcome_bind _ reading]
  exact Slicing.outcome_bind_of_error _ sorting

end Sorted

/-! ## What the calls decide -/

/-- Two items of which neither precedes the other. -/
def level (precedes : α → α → Bool) (item other : α) : Bool :=
  !precedes item other && !precedes other item

/-- Items in a total preorder are sorted by it, and those that are level keep their order. -/
theorem stable_mergeSortM {precedes : α → α → Bool} {items : List α}
    (orders : Orders (· ∈ items) precedes) :
    Ascending precedes (mergeSortM (m := Id) precedes items) ∧
      ∀ item ∈ items, (mergeSortM (m := Id) precedes items).filter (level precedes item) =
        items.filter (level precedes item) := by
  have good : ∀ item ∈ items, item ∈ items := fun _ member => member
  constructor
  · exact ascending_mergeSortM orders good
  · intro item member
    apply filter_mergeSortM orders _ good
    intro left right goodLeft goodRight levelLeft levelRight
    obtain ⟨_, leftNot⟩ := Bool.and_eq_true_iff.mp levelLeft
    obtain ⟨rightNot, _⟩ := Bool.and_eq_true_iff.mp levelRight
    rw [Bool.not_eq_true'] at leftNot rightNot
    exact orders.trans goodRight member goodLeft rightNot leftNot

/-- A comparator that never fails on the items of a slice. -/
def NeverFails (compare : α → α → ExceptT ε (StateM State) Ordering) (slice : List α) : Prop :=
  ∀ left ∈ slice, ∀ right ∈ slice, ∀ state : State,
    ∃ answer, ((comparing compare (left, right)).run state).1 = .ok answer

/-- Sorting a slice by a comparator that may remember, answer as it likes, and fail.

The sort comes to an end, never missteps, and calls the comparator for items of the slice only.  If
no call fails, which is so for a comparator that never does, the slice becomes a permutation; and if
the answers say which items precede which in a total preorder, it is sorted by it and keeps the
order of level items.  If a call fails, it is the last one, its failure is answered, and the slice
is what it was. -/
theorem sortSlice_sorts (compare : α → α → ExceptT ε (StateM State) Ordering) (slice : List α)
    (state : State) :
    ∃ calls later, Called (comparing compare) state calls later ∧
      (∀ call ∈ calls, call.1.1 ∈ slice ∧ call.1.2 ∈ slice) ∧
      (NeverFails compare slice → AllAnswered calls) ∧
      (AllAnswered calls → ∃ sorted,
        Slicing.outcome (sortSlice compare) slice state = ((.ok (.ok ()), sorted), later) ∧
        (mergeSortM (asks compare) slice).run.run state = (.ok sorted, later) ∧
        sorted.Perm slice ∧
        ∀ precedes, Orders (· ∈ slice) precedes → AgreesWith precedes calls →
          Ascending precedes sorted ∧
          ∀ item ∈ slice,
            sorted.filter (level precedes item) = slice.filter (level precedes item)) ∧
      (AllAnswered calls ∨ ∃ before pair error,
        calls = before ++ [(pair, .error error)] ∧ AllAnswered before ∧
        Slicing.outcome (sortSlice compare) slice state = ((.error error, slice), later) ∧
        (mergeSortM (asks compare) slice).run.run state = (.error error, later)) := by
  obtain ⟨calls, later, ends⟩ := (Plan.keeps_mergeSortM slice).exists_ends compare state
  cases ends with
  | @answered calls later sorted called about all ran perm settled =>
      rw [Plan.run_mergeSortM] at ran
      refine ⟨calls, later, called, about, fun _ => all, fun _ => ?_, .inl all⟩
      refine ⟨sorted, outcome_sortSlice perm ran, ran, perm, ?_⟩
      intro precedes orders agrees
      have unique := settled precedes agrees
      rw [Plan.run_mergeSortM] at unique
      rw [← unique]
      exact stable_mergeSortM orders
  | @failed before later pair error called about all ran =>
      rw [Plan.run_mergeSortM] at ran
      have last : (pair, Except.error error) ∈ before ++ [(pair, .error error)] :=
        List.mem_append_right before (List.mem_singleton_self _)
      have notAll : ¬AllAnswered (before ++ [(pair, .error error)]) := by
        intro answered
        obtain ⟨answer, equal⟩ := answered _ last
        contradiction
      refine ⟨_, later, called, about, ?_, fun answered => absurd answered notAll,
        .inr ⟨before, pair, error, rfl, all, outcome_sortSlice_of_error ran, ran⟩⟩
      intro never
      obtain ⟨asked, answered⟩ := called.exists_state _ last
      obtain ⟨answer, equal⟩ := never _ (about _ last).1 _ (about _ last).2 asked
      rw [answered] at equal
      contradiction

/-- Compare by the first component, and count the comparisons. -/
def counting (left right : Nat × Char) : ExceptT String (StateM Nat) Ordering := do
  modify (· + 1)
  return compare left.1 right.1

/-- Five pairs by their numbers, with a comparator that counts how often it is called.  Of the pairs
with one number the first comes first. -/
theorem pairs_are_sorted_by_counting :
    ∃ calls later sorted, NeverFails counting [(3, 'a'), (1, 'b'), (3, 'c'), (2, 'd'), (1, 'e')] ∧
      Called (comparing counting) 0 calls later ∧
      Slicing.outcome (sortSlice counting) [(3, 'a'), (1, 'b'), (3, 'c'), (2, 'd'), (1, 'e')] 0 =
        ((.ok (.ok ()), sorted), later) ∧
      sorted.Perm [(3, 'a'), (1, 'b'), (3, 'c'), (2, 'd'), (1, 'e')] ∧
      sorted.Pairwise (fun first second => first.1 ≤ second.1) ∧
      sorted.filter (fun pair => pair.1 == 3) = [(3, 'a'), (3, 'c')] := by
  have answers (left right : Nat × Char) (count : Nat) :
      ((comparing counting (left, right)).run count).1 = .ok (compare left.1 right.1) := rfl
  have never : NeverFails counting [(3, 'a'), (1, 'b'), (3, 'c'), (2, 'd'), (1, 'e')] :=
    fun left _ right _ count => ⟨_, answers left right count⟩
  obtain ⟨calls, later, called, -, all, result, -⟩ :=
    sortSlice_sorts counting [(3, 'a'), (1, 'b'), (3, 'c'), (2, 'd'), (1, 'e')] 0
  obtain ⟨sorted, outcome, -, perm, ordered⟩ := result (all never)
  have orders : Orders (· ∈ [(3, 'a'), (1, 'b'), (3, 'c'), (2, 'd'), (1, 'e')])
      fun left right : Nat × Char => decide (left.1 < right.1) := by
    constructor
    · intro left right _ _ before
      simp only [decide_eq_true_eq, decide_eq_false_iff_not] at before ⊢
      omega
    · intro first second third _ _ _ before after
      simp only [decide_eq_false_iff_not] at before after ⊢
      omega
  have agrees : AgreesWith (fun left right : Nat × Char => decide (left.1 < right.1)) calls := by
    intro call member answer given
    obtain ⟨count, asked⟩ := called.exists_state call member
    rw [answers, given] at asked
    rw [← Except.ok.inj asked, Bool.eq_iff_iff, decide_eq_true_eq, beq_iff_eq, Nat.compare_eq_lt]
  obtain ⟨ascending, stable⟩ := ordered _ orders agrees
  refine ⟨calls, later, sorted, never, called, outcome, perm, ascending.imp fun notBefore => ?_, ?_⟩
  · simpa using notBefore
  · have sameNumber : level (fun left right : Nat × Char => decide (left.1 < right.1)) (3, 'a') =
        fun pair => pair.1 == 3 := by
      funext pair
      rw [Bool.eq_iff_iff]
      simp only [level, Bool.and_eq_true, Bool.not_eq_true', decide_eq_false_iff_not, beq_iff_eq]
      omega
    have kept := stable (3, 'a') (by decide)
    rw [sameNumber] at kept
    exact kept

end Slices

end Records

end CountedHeap
