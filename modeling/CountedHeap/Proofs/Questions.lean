import CountedHeap.Proofs.Merging

/-!
Contract: what a sort asks, and what it makes of the answers.

A question runs in the heap that the one before it left, and may change that heap and answer as it
likes.  The sort stops at the first question that fails.  If no question fails, the answers alone
decide the order: a function that gives the same answers gives the same order.

Owns:
- chains of answered questions;
- the sort as such a chain, with at most one more question, which failed;
- the sort by an order is stable.

Does not own: what the questions do to the heap.
-/

namespace CountedHeap

variable {σ : Signature}

namespace Action

variable {β γ : Type} {action : Action σ β} {next : β → Action σ γ} {heap between : Heap σ}

theorem bind_of_answer {answer : β} (ran : action heap = .ok (.ok answer, between)) :
    (action >>= next) heap = next answer between := by
  simp only [bind, ExceptT.bind, ExceptT.mk, StateT.bind, ran]
  rfl

theorem bind_of_fault {fault : Fault} (ran : action heap = .ok (.error fault, between)) :
    (action >>= next) heap = .ok (.error fault, between) := by
  simp only [bind, ExceptT.bind, ExceptT.mk, StateT.bind, ran]
  rfl

theorem bind_of_exhausted {reason : Exhausted} (ran : action heap = .error reason) :
    (action >>= next) heap = .error reason := by
  simp only [bind, ExceptT.bind, ExceptT.mk, StateT.bind, ran]
  rfl

end Action

namespace Records

variable {α β γ : Type} {good : α → Prop} {question : α → α → Action σ Bool}

/-! ## Chains of questions -/

/-- Questions about good items, each asked in the heap that the one before it left, with their
answers. -/
inductive Asked (good : α → Prop) (question : α → α → Action σ Bool) :
    Heap σ → List (α × α × Bool) → Heap σ → Prop
  | nil {heap : Heap σ} : Asked good question heap [] heap
  | cons {heap between heap' : Heap σ} {left right : α} {answer : Bool}
      {log : List (α × α × Bool)} (goodLeft : good left) (goodRight : good right)
      (answered : question left right heap = .ok (.ok answer, between))
      (rest : Asked good question between log heap') :
      Asked good question heap ((left, right, answer) :: log) heap'

theorem Asked.append {heap between heap' : Heap σ} {log log' : List (α × α × Bool)}
    (first : Asked good question heap log between)
    (second : Asked good question between log' heap') :
    Asked good question heap (log ++ log') heap' := by
  induction first with
  | nil => exact second
  | cons goodLeft goodRight answered _ inductionHypothesis =>
      exact .cons goodLeft goodRight answered (inductionHypothesis second)

/-- A function gives the answers of a chain. -/
def Agrees (precedes : α → α → Bool) (log : List (α × α × Bool)) : Prop :=
  ∀ entry ∈ log, precedes entry.1 entry.2.1 = entry.2.2

theorem agrees_append {precedes : α → α → Bool} {log log' : List (α × α × Bool)} :
    Agrees precedes (log ++ log') ↔ Agrees precedes log ∧ Agrees precedes log' :=
  List.forall_mem_append

/-- The end of an action that does nothing but ask.  A function that gives the answers it got gives
its own answer, by `settled`; a question that fails is the last. -/
inductive Consulted (good : α → Prop) (question : α → α → Action σ Bool) (post : β → Prop)
    (settled : (α → α → Bool) → β) (heap : Heap σ) :
    Except Exhausted (Except Fault β × Heap σ) → Prop
  | answered {log : List (α × α × Bool)} {heap' : Heap σ} {answer : β}
      (asked : Asked good question heap log heap') (holds : post answer)
      (settles : ∀ precedes, Agrees precedes log → settled precedes = answer) :
      Consulted good question post settled heap (.ok (.ok answer, heap'))
  | faulted {log : List (α × α × Bool)} {between heap' : Heap σ} {left right : α} {fault : Fault}
      (asked : Asked good question heap log between) (goodLeft : good left)
      (goodRight : good right)
      (last : question left right between = .ok (.error fault, heap')) :
      Consulted good question post settled heap (.ok (.error fault, heap'))
  | exhausted {log : List (α × α × Bool)} {between : Heap σ} {left right : α}
      {reason : Exhausted} (asked : Asked good question heap log between) (goodLeft : good left)
      (goodRight : good right) (last : question left right between = .error reason) :
      Consulted good question post settled heap (.error reason)

/-- An action that does nothing but ask. -/
def Consults (good : α → Prop) (question : α → α → Action σ Bool) (post : β → Prop)
    (settled : (α → α → Bool) → β) (action : Action σ β) : Prop :=
  ∀ heap, Consulted good question post settled heap (action heap)

variable {post : β → Prop} {post' : γ → Prop} {settled : (α → α → Bool) → β}

theorem consults_pure {answer : β} (holds : post answer) :
    Consults good question post (fun _ => answer) (pure answer : Action σ β) :=
  fun _ => .answered .nil holds fun _ _ => rfl

theorem consults_question {left right : α} (goodLeft : good left) (goodRight : good right) :
    Consults good question (fun _ => True) (fun precedes => precedes left right)
      (question left right) := by
  intro heap
  cases ran : question left right heap with
  | error reason => exact .exhausted .nil goodLeft goodRight ran
  | ok result =>
      obtain ⟨outcome, heap'⟩ := result
      cases outcome with
      | error fault => exact .faulted .nil goodLeft goodRight ran
      | ok answer =>
          exact .answered (.cons goodLeft goodRight ran .nil) trivial
            fun precedes agrees => agrees _ (.head _)

theorem Consults.bind {action : Action σ β} {next : β → Action σ γ}
    {settledNext : β → (α → α → Bool) → γ}
    (first : Consults good question post settled action)
    (second : ∀ answer, post answer →
      Consults good question post' (settledNext answer) (next answer)) :
    Consults good question post' (fun precedes => settledNext (settled precedes) precedes)
      (action >>= next) := by
  intro heap
  have begun := first heap
  generalize ran : action heap = result at begun
  cases begun with
  | exhausted asked goodLeft goodRight last =>
      rw [Action.bind_of_exhausted ran]
      exact .exhausted asked goodLeft goodRight last
  | faulted asked goodLeft goodRight last =>
      rw [Action.bind_of_fault ran]
      exact .faulted asked goodLeft goodRight last
  | @answered log between answer asked holds settles =>
      rw [Action.bind_of_answer ran]
      have rest := second answer holds between
      generalize next answer between = result at rest
      cases rest with
      | exhausted asked' goodLeft goodRight last =>
          exact .exhausted (asked.append asked') goodLeft goodRight last
      | faulted asked' goodLeft goodRight last =>
          exact .faulted (asked.append asked') goodLeft goodRight last
      | answered asked' holds' settles' =>
          refine .answered (asked.append asked') holds' fun precedes agrees => ?_
          obtain ⟨before, after⟩ := agrees_append.mp agrees
          rw [settles precedes before]
          exact settles' precedes after

theorem Consults.congr {settled' : (α → α → Bool) → β} {action : Action σ β}
    (consults : Consults good question post settled action)
    (same : ∀ precedes, settled' precedes = settled precedes) :
    Consults good question post settled' action := by
  rwa [funext same]

/-! ## The sort as a chain -/

theorem consults_mergeM (earlier later : List α) :
    (∀ item ∈ earlier, good item) → (∀ item ∈ later, good item) →
      Consults good question (fun sorted : List α => ∀ item ∈ sorted, good item)
        (fun precedes => mergeM (m := Id) precedes earlier later)
        (mergeM question earlier later) := by
  fun_induction mergeM question earlier later with
  | case1 later =>
      intro _ goodLater
      exact (consults_pure goodLater).congr fun precedes => by
        rw [mergeM]
        rfl
  | case2 earlier nonempty =>
      intro goodEarlier _
      exact (consults_pure goodEarlier).congr fun precedes => by
        rw [mergeM]
        · rfl
        · exact nonempty
  | case3 first earlier second later laterFirst earlierFirst =>
      intro goodEarlier goodLater
      obtain ⟨goodFirst, goodFront⟩ := List.forall_mem_cons.mp goodEarlier
      obtain ⟨goodSecond, goodBack⟩ := List.forall_mem_cons.mp goodLater
      have going : ∀ answer : Bool, True →
          Consults good question (fun sorted : List α => ∀ item ∈ sorted, good item)
            (fun precedes => if answer = true then
              second :: mergeM (m := Id) precedes (first :: earlier) later
            else first :: mergeM (m := Id) precedes earlier (second :: later))
            (if answer = true then
              mergeM question (first :: earlier) later >>= fun sorted => pure (second :: sorted)
            else mergeM question earlier (second :: later) >>= fun sorted =>
              pure (first :: sorted)) := by
        intro answer _
        cases answer with
        | true =>
            exact (laterFirst goodEarlier goodBack).bind fun sorted goodSorted =>
              consults_pure (List.forall_mem_cons.mpr ⟨goodSecond, goodSorted⟩)
        | false =>
            exact (earlierFirst goodFront goodLater).bind fun sorted goodSorted =>
              consults_pure (List.forall_mem_cons.mpr ⟨goodFirst, goodSorted⟩)
      refine ((consults_question goodSecond goodFirst).bind going).congr fun precedes => ?_
      rw [mergeM]
      rfl

theorem consults_mergePairsM (runs : List (List α)) :
    (∀ run ∈ runs, ∀ item ∈ run, good item) →
      Consults good question (fun merged : List (List α) => ∀ run ∈ merged, ∀ item ∈ run, good item)
        (fun precedes => mergePairsM (m := Id) precedes runs) (mergePairsM question runs) := by
  fun_induction mergePairsM question runs with
  | case1 first second rest inductionHypothesis =>
      intro goodRuns
      obtain ⟨goodFirst, goodOthers⟩ := List.forall_mem_cons.mp goodRuns
      obtain ⟨goodSecond, goodRest⟩ := List.forall_mem_cons.mp goodOthers
      exact (consults_mergeM first second goodFirst goodSecond).bind fun merged goodMerged =>
        (inductionHypothesis goodRest).bind fun others goodOthers =>
          consults_pure (List.forall_mem_cons.mpr ⟨goodMerged, goodOthers⟩)
  | case2 runs notPair =>
      intro goodRuns
      exact (consults_pure goodRuns).congr fun precedes => by
        rw [mergePairsM]
        · rfl
        · exact notPair

theorem consults_mergeRunsM (count : Nat) (runs : List (List α))
    (goodRuns : ∀ run ∈ runs, ∀ item ∈ run, good item) :
    Consults good question (fun sorted : List α => ∀ item ∈ sorted, good item)
      (fun precedes => mergeRunsM (m := Id) precedes count runs)
      (mergeRunsM question count runs) := by
  induction count using Nat.strongRecOn generalizing runs with
  | ind count inductionHypothesis =>
      by_cases many : 1 < count
      · have passing : Consults good question (fun sorted : List α => ∀ item ∈ sorted, good item)
            (fun precedes => mergeRunsM (m := Id) precedes ((count + 1) / 2)
              (mergePairsM (m := Id) precedes runs))
            (mergePairsM question runs >>= mergeRunsM question ((count + 1) / 2)) :=
          (consults_mergePairsM runs goodRuns).bind fun merged goodMerged =>
            inductionHypothesis _ (by omega) merged goodMerged
        rw [mergeRunsM, if_pos many]
        refine passing.congr fun precedes => ?_
        rw [mergeRunsM, if_pos many]
        rfl
      · have flat : ∀ item ∈ runs.flatten, good item := by
          intro item member
          obtain ⟨run, found, inside⟩ := List.mem_flatten.mp member
          exact goodRuns run found item inside
        rw [mergeRunsM, if_neg many]
        refine (consults_pure flat).congr fun precedes => ?_
        rw [mergeRunsM, if_neg many]
        rfl

/-- The sort asks about its items, and the answers decide the order. -/
theorem consults_mergeSortM {items : List α} (goodItems : ∀ item ∈ items, good item) :
    Consults good question (fun sorted : List α => ∀ item ∈ sorted, good item)
      (fun precedes => mergeSortM (m := Id) precedes items) (mergeSortM question items) :=
  consults_mergeRunsM _ _ (forall_mem_singletons goodItems)

/-! ## Stability -/

variable {precedes : α → α → Bool} {chosen : α → Bool}

/-- None of the chosen items precedes another. -/
def Alike (good : α → Prop) (precedes : α → α → Bool) (chosen : α → Bool) : Prop :=
  ∀ left right, good left → good right → chosen left = true → chosen right = true →
    precedes left right = false

theorem filter_mergeM (orders : Orders good precedes) (alike : Alike good precedes chosen)
    (earlier later : List α) :
    (∀ item ∈ earlier, good item) → (∀ item ∈ later, good item) → Ascending precedes earlier →
      (mergeM (m := Id) precedes earlier later).filter chosen =
        earlier.filter chosen ++ later.filter chosen := by
  fun_induction mergeM (m := Id) precedes earlier later with
  | case1 later => exact fun _ _ _ => rfl
  | case2 earlier nonempty =>
      intro _ _ _
      rw [List.filter_nil, List.append_nil]
      rfl
  | case3 first earlier second later laterFirst earlierFirst =>
      intro goodEarlier goodLater ascending
      obtain ⟨goodFirst, goodFront⟩ := List.forall_mem_cons.mp goodEarlier
      obtain ⟨goodSecond, goodBack⟩ := List.forall_mem_cons.mp goodLater
      obtain ⟨fromFirst, front⟩ := List.pairwise_cons.mp ascending
      show (if precedes second first = true then _ else _ : List α).filter chosen = _
      cases asked : precedes second first with
      | false =>
          show (first :: mergeM (m := Id) precedes earlier (second :: later)).filter chosen = _
          rw [List.filter_cons, List.filter_cons, earlierFirst goodFront goodLater front]
          split <;> rfl
      | true =>
          show (second :: mergeM (m := Id) precedes (first :: earlier) later).filter chosen = _
          have rest := laterFirst goodEarlier goodBack ascending
          cases picked : chosen second with
          | false =>
              rw [List.filter_cons_of_neg (by simp [picked]), rest,
                List.filter_cons_of_neg (l := later) (by simp [picked])]
          | true =>
              -- What the head of the later run overtakes comes after it in the order, so nothing
              -- that is chosen is overtaken.
              have overtaken : ∀ item ∈ first :: earlier, ¬chosen item = true := by
                intro item member chosenItem
                rcases List.mem_cons.mp member with rfl | inside
                · rw [alike second item goodSecond goodFirst picked chosenItem] at asked
                  contradiction
                · have goodItem := goodFront item inside
                  have level := alike second item goodSecond goodItem picked chosenItem
                  rw [orders.trans goodFirst goodItem goodSecond (fromFirst item inside) level]
                    at asked
                  contradiction
              have none : (first :: earlier).filter chosen = [] :=
                List.filter_eq_nil_iff.mpr overtaken
              rw [List.filter_cons_of_pos picked, rest, none, List.nil_append, List.nil_append,
                List.filter_cons_of_pos picked]

theorem filter_mergePairsM (orders : Orders good precedes) (alike : Alike good precedes chosen)
    (runs : List (List α)) :
    (∀ run ∈ runs, ∀ item ∈ run, good item) → (∀ run ∈ runs, Ascending precedes run) →
      (mergePairsM (m := Id) precedes runs).flatten.filter chosen =
        runs.flatten.filter chosen := by
  fun_induction mergePairsM (m := Id) precedes runs with
  | case1 first second rest inductionHypothesis =>
      intro goodRuns ascending
      obtain ⟨goodFirst, goodOthers⟩ := List.forall_mem_cons.mp goodRuns
      obtain ⟨goodSecond, goodRest⟩ := List.forall_mem_cons.mp goodOthers
      obtain ⟨ascendingFirst, others⟩ := List.forall_mem_cons.mp ascending
      show (mergeM (m := Id) precedes first second ::
        mergePairsM (m := Id) precedes rest).flatten.filter chosen = _
      rw [List.flatten_cons, List.filter_append,
        filter_mergeM orders alike first second goodFirst goodSecond ascendingFirst,
        inductionHypothesis goodRest fun run member => others run (.tail _ member)]
      simp only [List.flatten_cons, List.filter_append, List.append_assoc]
  | case2 runs notPair => exact fun _ _ => rfl

theorem filter_mergeRunsM (orders : Orders good precedes) (alike : Alike good precedes chosen)
    (count : Nat) (runs : List (List α)) (goodRuns : ∀ run ∈ runs, ∀ item ∈ run, good item)
    (ascending : ∀ run ∈ runs, Ascending precedes run) :
    (mergeRunsM (m := Id) precedes count runs).filter chosen = runs.flatten.filter chosen := by
  induction count using Nat.strongRecOn generalizing runs with
  | ind count inductionHypothesis =>
      rw [mergeRunsM]
      split
      next many =>
        exact (inductionHypothesis _ (by omega) _
          (forall_mem_of_perm goodRuns (mergePairsM_perm precedes runs))
          (ascending_mergePairsM orders runs goodRuns ascending)).trans
          (filter_mergePairsM orders alike runs goodRuns ascending)
      next => rfl

/-- Items of which none precedes another keep their order. -/
theorem filter_mergeSortM (orders : Orders good precedes) (alike : Alike good precedes chosen)
    {items : List α} (goodItems : ∀ item ∈ items, good item) :
    (mergeSortM (m := Id) precedes items).filter chosen = items.filter chosen := by
  have single : (items.map ([·])).flatten = items := by
    rw [← List.flatMap_def, List.flatMap_singleton']
  have filtered := filter_mergeRunsM orders alike items.length (items.map ([·]))
    (forall_mem_singletons goodItems) (by
      intro run member
      obtain ⟨item, -, rfl⟩ := List.mem_map.mp member
      exact List.pairwise_singleton _ _)
  rwa [single] at filtered

end Records

end CountedHeap
