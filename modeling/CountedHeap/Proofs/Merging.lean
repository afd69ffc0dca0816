import CountedHeap.Proofs.Sorting
import Mathlib.Data.List.Pairwise

/-!
Contract: the merge sort by a question that is settled.

A question is settled on some items if asking it about two of them changes nothing and always gets
the same answer.  The sort by such a question is a function on lists, which is the sort in the
monad without effects.

Owns:
- the sort by a settled question as a function on lists;
- this function permutes, and where the question is an order of the items it sorts;
- a sort by the order of values as this function.
-/

namespace CountedHeap

variable {σ : Signature}

/-- What comes after an action that answered and changed nothing. -/
theorem Action.bind_of_answered {α β : Type} {action : Action σ α} {next : α → Action σ β}
    {heap : Heap σ} {answer : α} (answered : action heap = .ok (.ok answer, heap)) :
    (action >>= next) heap = next answer heap := by
  simp only [bind, ExceptT.bind, ExceptT.mk, StateT.bind, answered]
  rfl

namespace Records

variable {α : Type}

/-! ## Settled questions -/

/-- Asking whether one of the good items precedes another changes nothing and answers what
`precedes` says. -/
def Answers (heap : Heap σ) (good : α → Prop) (precedes : α → α → Bool)
    (question : α → α → Action σ Bool) : Prop :=
  ∀ left right, good left → good right →
    question left right heap = .ok (.ok (precedes left right), heap)

variable {heap : Heap σ} {good : α → Prop} {precedes : α → α → Bool}
  {question : α → α → Action σ Bool}

theorem mergeM_of_answers (answers : Answers heap good precedes question)
    (earlier later : List α) :
    (∀ item ∈ earlier, good item) → (∀ item ∈ later, good item) →
      mergeM question earlier later heap =
        .ok (.ok (mergeM (m := Id) precedes earlier later), heap) := by
  fun_induction mergeM question earlier later with
  | case1 later =>
      intro _ _
      rw [mergeM]
      rfl
  | case2 earlier nonempty =>
      intro _ _
      rw [mergeM]
      · rfl
      · exact nonempty
  | case3 first earlier second later laterFirst earlierFirst =>
      intro goodEarlier goodLater
      obtain ⟨goodFirst, goodFront⟩ := List.forall_mem_cons.mp goodEarlier
      obtain ⟨goodSecond, goodBack⟩ := List.forall_mem_cons.mp goodLater
      rw [Action.bind_of_answered (answers second first goodSecond goodFirst)]
      conv => rhs; rw [mergeM]
      cases precedes second first with
      | true =>
          simp only [if_true]
          rw [Action.bind_of_answered (laterFirst goodEarlier goodBack)]
          rfl
      | false =>
          simp only [Bool.false_eq_true, if_false]
          rw [Action.bind_of_answered (earlierFirst goodFront goodLater)]
          rfl

/-- The merge without effects is the merge of the library. -/
theorem mergeM_eq_merge (precedes : α → α → Bool) (earlier later : List α) :
    mergeM (m := Id) precedes earlier later =
      earlier.merge later fun left right => !precedes right left := by
  fun_induction mergeM (m := Id) precedes earlier later with
  | case1 later => rw [List.nil_merge]; rfl
  | case2 earlier nonempty => rw [List.merge_right]; rfl
  | case3 first earlier second later laterFirst earlierFirst =>
      rw [List.cons_merge_cons, ← laterFirst, ← earlierFirst]
      show (if precedes second first = true then _ else _) = _
      cases precedes second first <;> rfl

theorem mergeM_perm (precedes : α → α → Bool) (earlier later : List α) :
    (mergeM (m := Id) precedes earlier later).Perm (earlier ++ later) := by
  rw [mergeM_eq_merge]
  exact List.merge_perm_append _

theorem mergePairsM_perm (precedes : α → α → Bool) (runs : List (List α)) :
    (mergePairsM (m := Id) precedes runs).flatten.Perm runs.flatten := by
  fun_induction mergePairsM (m := Id) precedes runs with
  | case1 first second rest inductionHypothesis =>
      rw [List.flatten_cons, List.flatten_cons, ← List.append_assoc]
      exact (mergeM_perm precedes first second).append inductionHypothesis
  | case2 runs notPair => exact .refl _

theorem mergePairsM_of_answers (answers : Answers heap good precedes question)
    (runs : List (List α)) :
    (∀ run ∈ runs, ∀ item ∈ run, good item) →
      mergePairsM question runs heap =
        .ok (.ok (mergePairsM (m := Id) precedes runs), heap) := by
  fun_induction mergePairsM question runs with
  | case1 first second rest inductionHypothesis =>
      intro goodRuns
      obtain ⟨goodFirst, goodOthers⟩ := List.forall_mem_cons.mp goodRuns
      obtain ⟨goodSecond, goodRest⟩ := List.forall_mem_cons.mp goodOthers
      rw [Action.bind_of_answered (mergeM_of_answers answers first second goodFirst goodSecond),
        Action.bind_of_answered (inductionHypothesis goodRest)]
      rfl
  | case2 runs notPair =>
      intro _
      rw [mergePairsM]
      · rfl
      · exact notPair

theorem mergeRunsM_of_answers (answers : Answers heap good precedes question) (count : Nat)
    (runs : List (List α)) (goodRuns : ∀ run ∈ runs, ∀ item ∈ run, good item) :
    mergeRunsM question count runs heap =
      .ok (.ok (mergeRunsM (m := Id) precedes count runs), heap) := by
  induction count using Nat.strongRecOn generalizing runs with
  | ind count inductionHypothesis =>
      rw [mergeRunsM]
      conv => rhs; rw [mergeRunsM]
      split
      next many =>
        rw [Action.bind_of_answered (mergePairsM_of_answers answers runs goodRuns)]
        exact inductionHypothesis _ (by omega) _
          (forall_mem_of_perm goodRuns (mergePairsM_perm precedes runs))
      next => rfl

theorem forall_mem_singletons {items : List α} (goodItems : ∀ item ∈ items, good item) :
    ∀ run ∈ items.map ([·]), ∀ item ∈ run, good item := by
  intro run member item inside
  obtain ⟨only, found, rfl⟩ := List.mem_map.mp member
  exact List.mem_singleton.mp inside ▸ goodItems only found

/-- The sort by a settled question is the sort without effects. -/
theorem mergeSortM_of_answers (answers : Answers heap good precedes question) (items : List α)
    (goodItems : ∀ item ∈ items, good item) :
    mergeSortM question items heap = .ok (.ok (mergeSortM (m := Id) precedes items), heap) :=
  mergeRunsM_of_answers answers _ _ (forall_mem_singletons goodItems)

/-! ## What the sort without effects answers -/

theorem mergeRunsM_perm (precedes : α → α → Bool) (count : Nat) (runs : List (List α)) :
    (mergeRunsM (m := Id) precedes count runs).Perm runs.flatten := by
  induction count using Nat.strongRecOn generalizing runs with
  | ind count inductionHypothesis =>
      rw [mergeRunsM]
      split
      next many =>
        exact (inductionHypothesis _ (by omega) _).trans (mergePairsM_perm precedes runs)
      next => exact .refl _

theorem mergeSortM_perm (precedes : α → α → Bool) (items : List α) :
    (mergeSortM (m := Id) precedes items).Perm items := by
  have single : (items.map ([·])).flatten = items := by
    rw [← List.flatMap_def, List.flatMap_singleton']
  have perm := mergeRunsM_perm precedes items.length (items.map ([·]))
  rwa [single] at perm

/-- The answers of the question order the good items: of two of them one does not precede the
other, and what does not precede goes on from item to item. -/
structure Orders (good : α → Prop) (precedes : α → α → Bool) : Prop where
  asymm : ∀ {left right}, good left → good right → precedes left right = true →
    precedes right left = false
  trans : ∀ {first second third}, good first → good second → good third →
    precedes second first = false → precedes third second = false → precedes third first = false

/-- No item of a list precedes one before it. -/
def Ascending (precedes : α → α → Bool) (items : List α) : Prop :=
  items.Pairwise fun left right => precedes right left = false

theorem ascending_mergeM (orders : Orders good precedes) (earlier later : List α) :
    (∀ item ∈ earlier, good item) → (∀ item ∈ later, good item) →
      Ascending precedes earlier → Ascending precedes later →
        Ascending precedes (mergeM (m := Id) precedes earlier later) := by
  fun_induction mergeM (m := Id) precedes earlier later with
  | case1 later => exact fun _ _ _ ascending => ascending
  | case2 earlier nonempty => exact fun _ _ ascending _ => ascending
  | case3 first earlier second later laterFirst earlierFirst =>
      intro goodEarlier goodLater ascending ascending'
      obtain ⟨goodFirst, goodFront⟩ := List.forall_mem_cons.mp goodEarlier
      obtain ⟨goodSecond, goodBack⟩ := List.forall_mem_cons.mp goodLater
      obtain ⟨fromFirst, front⟩ := List.pairwise_cons.mp ascending
      obtain ⟨fromSecond, back⟩ := List.pairwise_cons.mp ascending'
      show Ascending precedes (if precedes second first = true then _ else _)
      cases asked : precedes second first with
      | true =>
          -- The head of the later run goes first: it precedes the head of the other run.
          have behind := orders.asymm goodSecond goodFirst asked
          apply List.pairwise_cons.mpr ⟨_, laterFirst goodEarlier goodBack ascending back⟩
          intro item member
          rcases List.mem_append.mp ((mergeM_perm precedes _ _).subset member) with inFront | inBack
          · rcases List.mem_cons.mp inFront with rfl | inside
            · exact behind
            · exact orders.trans goodSecond goodFirst (goodFront item inside) behind
                (fromFirst item inside)
          · exact fromSecond item inBack
      | false =>
          apply List.pairwise_cons.mpr ⟨_, earlierFirst goodFront goodLater front ascending'⟩
          intro item member
          rcases List.mem_append.mp ((mergeM_perm precedes _ _).subset member) with inFront | inBack
          · exact fromFirst item inFront
          · rcases List.mem_cons.mp inBack with rfl | inside
            · exact asked
            · exact orders.trans goodFirst goodSecond (goodBack item inside) asked
                (fromSecond item inside)

theorem ascending_mergePairsM (orders : Orders good precedes) (runs : List (List α)) :
    (∀ run ∈ runs, ∀ item ∈ run, good item) → (∀ run ∈ runs, Ascending precedes run) →
      ∀ run ∈ Id.run (mergePairsM precedes runs), Ascending precedes run := by
  fun_induction mergePairsM (m := Id) precedes runs with
  | case1 first second rest inductionHypothesis =>
      intro goodRuns ascending
      obtain ⟨goodFirst, goodOthers⟩ := List.forall_mem_cons.mp goodRuns
      obtain ⟨goodSecond, goodRest⟩ := List.forall_mem_cons.mp goodOthers
      obtain ⟨ascendingFirst, others⟩ := List.forall_mem_cons.mp ascending
      obtain ⟨ascendingSecond, ascendingRest⟩ := List.forall_mem_cons.mp others
      apply List.forall_mem_cons.mpr ⟨_, inductionHypothesis goodRest ascendingRest⟩
      exact ascending_mergeM orders first second goodFirst goodSecond ascendingFirst
        ascendingSecond
  | case2 runs notPair => exact fun _ ascending => ascending

theorem length_mergePairsM (precedes : α → α → Bool) (runs : List (List α)) :
    (mergePairsM (m := Id) precedes runs).length = (runs.length + 1) / 2 := by
  fun_induction mergePairsM (m := Id) precedes runs with
  | case1 first second rest inductionHypothesis =>
      show (mergePairsM (m := Id) precedes rest).length + 1 = _
      rw [inductionHypothesis]
      simp only [List.length_cons]
      omega
  | case2 runs notPair =>
      show runs.length = _
      rcases runs with _ | ⟨first, _ | ⟨second, rest⟩⟩
      · simp
      · simp
      · exact absurd rfl (notPair first second rest)

theorem ascending_mergeRunsM (orders : Orders good precedes) (count : Nat) (runs : List (List α))
    (enough : runs.length ≤ count) (goodRuns : ∀ run ∈ runs, ∀ item ∈ run, good item)
    (ascending : ∀ run ∈ runs, Ascending precedes run) :
    Ascending precedes (mergeRunsM (m := Id) precedes count runs) := by
  induction count using Nat.strongRecOn generalizing runs with
  | ind count inductionHypothesis =>
      rw [mergeRunsM]
      split
      next many =>
        apply inductionHypothesis _ (by omega)
        · rw [length_mergePairsM]
          omega
        · exact forall_mem_of_perm goodRuns (mergePairsM_perm precedes runs)
        · exact ascending_mergePairsM orders runs goodRuns ascending
      next few =>
        show Ascending precedes runs.flatten
        rcases runs with _ | ⟨run, _ | ⟨second, rest⟩⟩
        · exact .nil
        · rw [List.flatten_singleton]
          exact ascending run List.mem_cons_self
        · simp only [List.length_cons] at enough
          omega

/-- Where the question orders the items, the sort leaves them in order. -/
theorem ascending_mergeSortM (orders : Orders good precedes) {items : List α}
    (goodItems : ∀ item ∈ items, good item) :
    Ascending precedes (mergeSortM (m := Id) precedes items) := by
  apply ascending_mergeRunsM orders _ _ (by rw [List.length_map])
    (forall_mem_singletons goodItems)
  intro run member
  obtain ⟨item, -, rfl⟩ := List.mem_map.mp member
  exact List.pairwise_singleton _ _

end Records

/-! ## The sort by the order of values -/

/-- Whether the leading element of a record comes before that of another in the order of values. -/
def Heap.leadsBefore (heap : Heap σ) (left right : List Value) : Bool :=
  heap.compare (left.headD .null) (right.headD .null) == .lt

theorem Records.answers_precedesInOrder (heap : Heap σ) (good : List Value → Prop) :
    Records.Answers heap good heap.leadsBefore (askLeading precedesInOrder) :=
  fun _ _ _ _ => rfl

/-- The sort by the order of values always succeeds.  It compares in the heap without the items. -/
theorem sortItems_in_order {heap : Heap σ} {sequence : Value} {items : List Value}
    (found : heap.items? sequence = some items) (call : Caller σ) (step : Nat) :
    let cut := Records.cutRecords (max step 1) (items.length / max step 1) items
    let detached := heap.setChildren sequence []
    let sorted := Records.mergeSortM (m := Id) detached.leadsBefore cut.1
    sortItems call sequence step none heap =
      .ok (.ok (), detached.restoreItems sequence (sorted.flatten ++ cut.2)) := by
  have sorting := Records.mergeSortM_of_answers
    (Records.answers_precedesInOrder (heap.setChildren sequence []) fun _ => True)
    (Records.cutRecords (max step 1) (items.length / max step 1) items).1 fun _ _ => trivial
  simp only [sortItems, found, Option.filter_none]
  rw [sorting]
  rfl

end CountedHeap
