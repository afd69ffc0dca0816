import CountedHeap.Proofs.Sequences
import CountedHeap.Sequence.Sort
import Mathlib.Data.List.Perm.Basic

/-!
Contract: sorting permutes, whatever its question does meanwhile.

The question runs in the heap and may change it.  Any relation of heaps that every question
keeps, and that is reflexive and transitive, is kept by the whole sort.

Owns:
- the merge sort as a permutation, and as a run of questions about its items;
- a sort in place as three stages: the items leave, the questions run, the items come back;
- the sort by the order of values as a step.
-/

namespace CountedHeap

variable {σ : Signature}

/-- A run that answered came through both of its parts. -/
theorem Action.bind_eq_ok {α β : Type} {first : Action σ α} {next : α → Action σ β}
    {heap heap' : Heap σ} {outcome : Except Fault β}
    (done : (first >>= next) heap = .ok (outcome, heap')) :
    (∃ fault, first heap = .ok (.error fault, heap') ∧ outcome = .error fault) ∨
      ∃ answer between, first heap = .ok (.ok answer, between) ∧
        next answer between = .ok (outcome, heap') := by
  simp only [bind, ExceptT.bind, ExceptT.mk, StateT.bind] at done
  obtain ⟨⟨answer, between⟩, ran, rest⟩ := CountedHeap.bind_eq_ok.mp done
  cases answer with
  | error fault =>
      obtain ⟨rfl, rfl⟩ := Prod.mk.inj (Except.ok.inj rest)
      exact .inl ⟨fault, ran, rfl⟩
  | ok answer => exact .inr ⟨answer, between, ran, rest⟩

theorem Action.pure_eq_ok {α : Type} {answer : α} {heap heap' : Heap σ}
    {outcome : Except Fault α} (done : (pure answer : Action σ α) heap = .ok (outcome, heap')) :
    outcome = .ok answer ∧ heap' = heap := by
  obtain ⟨rfl, rfl⟩ := Prod.mk.inj (Except.ok.inj done)
  exact ⟨rfl, rfl⟩

/-- An action keeps a relation if every run of it does. -/
def Action.Keeps {α : Type} (relation : Heap σ → Heap σ → Prop) (action : Action σ α) : Prop :=
  ∀ heap heap' outcome, action heap = .ok (outcome, heap') → relation heap heap'

namespace Records

variable {α : Type} {relation : Heap σ → Heap σ → Prop} {question : α → α → Action σ Bool}

/-- What a run that sorts does: it keeps the relation, and its answer is a permutation. -/
def Permutes (relation : Heap σ → Heap σ → Prop) (action : Action σ (List α))
    (items : List α) : Prop :=
  ∀ heap heap' outcome, action heap = .ok (outcome, heap') →
    relation heap heap' ∧ ∀ sorted, outcome = .ok sorted → sorted.Perm items

theorem permutes_pure (refl : ∀ heap, relation heap heap) {items sorted : List α}
    (perm : sorted.Perm items) : Permutes relation (pure sorted : Action σ (List α)) items := by
  intro heap heap' outcome done
  obtain ⟨rfl, rfl⟩ := Action.pure_eq_ok done
  exact ⟨refl heap', fun answer equal => Except.ok.inj equal ▸ perm⟩

theorem Permutes.perm {action : Action σ (List α)} {items items' : List α}
    (permutes : Permutes relation action items) (perm : items.Perm items') :
    Permutes relation action items' := by
  intro heap heap' outcome done
  obtain ⟨kept, answered⟩ := permutes heap heap' outcome done
  exact ⟨kept, fun sorted equal => (answered sorted equal).trans perm⟩

/-- What is put in front of the answer is put in front of the items. -/
theorem Permutes.cons (trans : ∀ first second third, relation first second →
      relation second third → relation first third) (refl : ∀ heap, relation heap heap)
    {action : Action σ (List α)} {items : List α} (permutes : Permutes relation action items)
    (head : α) :
    Permutes relation (action >>= fun sorted => pure (head :: sorted)) (head :: items) := by
  intro heap heap' outcome done
  rcases Action.bind_eq_ok done with ⟨fault, ran, rfl⟩ | ⟨answer, between, ran, rest⟩
  · exact ⟨(permutes _ _ _ ran).1, nofun⟩
  · obtain ⟨kept, perm⟩ := permutes _ _ _ ran
    obtain ⟨rfl, rfl⟩ := Action.pure_eq_ok rest
    exact ⟨trans _ _ _ kept (refl _), fun sorted equal =>
      Except.ok.inj equal ▸ (perm answer rfl).cons head⟩

variable {good : α → Prop}

theorem permutes_mergeM (refl : ∀ heap, relation heap heap)
    (trans : ∀ first second third, relation first second → relation second third →
      relation first third)
    (asks : ∀ left right, good left → good right → (question left right).Keeps relation)
    (earlier later : List α) :
    (∀ item ∈ earlier, good item) → (∀ item ∈ later, good item) →
      Permutes relation (mergeM question earlier later) (earlier ++ later) := by
  fun_induction mergeM question earlier later with
  | case1 later =>
      intro _ _
      exact permutes_pure refl (.refl _)
  | case2 earlier _ =>
      intro _ _
      exact permutes_pure refl (by rw [List.append_nil])
  | case3 first earlier second later laterFirst earlierFirst =>
      intro goodEarlier goodLater heap heap' outcome done
      obtain ⟨goodFirst, goodFront⟩ := List.forall_mem_cons.mp goodEarlier
      obtain ⟨goodSecond, goodBack⟩ := List.forall_mem_cons.mp goodLater
      have asking := asks second first goodSecond goodFirst
      rcases Action.bind_eq_ok done with ⟨fault, asked, rfl⟩ | ⟨answer, between, asked, rest⟩
      · exact ⟨asking _ _ _ asked, nofun⟩
      · have front : Permutes relation (if answer = true then
              mergeM question (first :: earlier) later >>= fun sorted => pure (second :: sorted)
            else mergeM question earlier (second :: later) >>= fun sorted =>
              pure (first :: sorted)) (first :: earlier ++ second :: later) := by
          split
          · apply ((laterFirst goodEarlier goodBack).cons trans refl second).perm
            exact List.perm_middle.symm
          · exact (earlierFirst goodFront goodLater).cons trans refl first
        obtain ⟨kept, perm⟩ := front _ _ _ rest
        exact ⟨trans _ _ _ (asking _ _ _ asked) kept, perm⟩

theorem permutes_mergePairsM (refl : ∀ heap, relation heap heap)
    (trans : ∀ first second third, relation first second → relation second third →
      relation first third)
    (asks : ∀ left right, good left → good right → (question left right).Keeps relation)
    (runs : List (List α)) :
    (∀ run ∈ runs, ∀ item ∈ run, good item) →
      ∀ heap heap' outcome, mergePairsM question runs heap = .ok (outcome, heap') →
        relation heap heap' ∧
          ∀ merged, outcome = .ok merged → merged.flatten.Perm runs.flatten := by
  fun_induction mergePairsM question runs with
  | case1 first second rest inductionHypothesis =>
      intro goodRuns heap heap' outcome done
      obtain ⟨goodFirst, goodOthers⟩ := List.forall_mem_cons.mp goodRuns
      obtain ⟨goodSecond, goodRest⟩ := List.forall_mem_cons.mp goodOthers
      have merging := permutes_mergeM refl trans asks first second goodFirst goodSecond
      rcases Action.bind_eq_ok done with ⟨fault, ran, rfl⟩ | ⟨merged, between, ran, done⟩
      · exact ⟨(merging _ _ _ ran).1, nofun⟩
      · obtain ⟨kept, perm⟩ := merging _ _ _ ran
        rcases Action.bind_eq_ok done with ⟨fault, others, rfl⟩ | ⟨answer, after, others, done⟩
        · exact ⟨trans _ _ _ kept (inductionHypothesis goodRest _ _ _ others).1, nofun⟩
        · obtain ⟨keptOthers, permOthers⟩ := inductionHypothesis goodRest _ _ _ others
          obtain ⟨rfl, rfl⟩ := Action.pure_eq_ok done
          refine ⟨trans _ _ _ kept keptOthers, fun result equal => ?_⟩
          obtain rfl := Except.ok.inj equal
          rw [List.flatten_cons, List.flatten_cons, List.flatten_cons, ← List.append_assoc]
          exact (perm merged rfl).append (permOthers answer rfl)
  | case2 runs _ =>
      intro _ heap heap' outcome done
      obtain ⟨rfl, rfl⟩ := Action.pure_eq_ok done
      exact ⟨refl _, fun merged equal => Except.ok.inj equal ▸ .refl _⟩

/-- What a permutation of runs has to be good for is what the runs were good for. -/
theorem forall_mem_of_perm {runs merged : List (List α)}
    (goodRuns : ∀ run ∈ runs, ∀ item ∈ run, good item)
    (perm : merged.flatten.Perm runs.flatten) : ∀ run ∈ merged, ∀ item ∈ run, good item := by
  intro run member item inside
  have found := perm.subset (List.mem_flatten.mpr ⟨run, member, inside⟩)
  obtain ⟨origin, originMember, originInside⟩ := List.mem_flatten.mp found
  exact goodRuns origin originMember item originInside

theorem permutes_mergeRunsM (refl : ∀ heap, relation heap heap)
    (trans : ∀ first second third, relation first second → relation second third →
      relation first third)
    (asks : ∀ left right, good left → good right → (question left right).Keeps relation)
    (count : Nat) (runs : List (List α)) (goodRuns : ∀ run ∈ runs, ∀ item ∈ run, good item) :
    Permutes relation (mergeRunsM question count runs) runs.flatten := by
  induction count using Nat.strongRecOn generalizing runs with
  | ind count inductionHypothesis =>
      rw [mergeRunsM]
      split
      next many =>
        intro heap heap' outcome done
        have merging := permutes_mergePairsM refl trans asks runs goodRuns
        rcases Action.bind_eq_ok done with ⟨fault, ran, rfl⟩ | ⟨merged, between, ran, done⟩
        · exact ⟨(merging _ _ _ ran).1, nofun⟩
        · obtain ⟨kept, perm⟩ := merging _ _ _ ran
          have goodMerged := forall_mem_of_perm goodRuns (perm merged rfl)
          obtain ⟨keptRest, permRest⟩ := ((inductionHypothesis _ (by omega) merged
            goodMerged).perm (perm merged rfl)) _ _ _ done
          exact ⟨trans _ _ _ kept keptRest, permRest⟩
      next => exact permutes_pure refl (.refl _)

/-- The sort answers a permutation, and whatever all questions about its items keep is kept. -/
theorem permutes_mergeSortM (refl : ∀ heap, relation heap heap)
    (trans : ∀ first second third, relation first second → relation second third →
      relation first third)
    (asks : ∀ left right, good left → good right → (question left right).Keeps relation)
    (items : List α) (goodItems : ∀ item ∈ items, good item) :
    Permutes relation (mergeSortM question items) items := by
  have single : (items.map ([·])).flatten = items := by
    induction items with
    | nil => rfl
    | cons head rest inductionHypothesis =>
        simpa using inductionHypothesis (fun item member => goodItems item (.tail _ member))
  have permutes := permutes_mergeRunsM refl trans asks items.length (items.map ([·])) (by
    intro run member item inside
    obtain ⟨only, found, rfl⟩ := List.mem_map.mp member
    exact List.mem_singleton.mp inside ▸ goodItems only found)
  rwa [single] at permutes

end Records

/-! ## The questions of a sort -/

theorem keeps_precedesInOrder {relation : Heap σ → Heap σ → Prop}
    (refl : ∀ heap, relation heap heap) (left right : Value) :
    (precedesInOrder left right).Keeps relation := by
  intro heap heap' outcome done
  obtain ⟨-, rfl⟩ := Prod.mk.inj (Except.ok.inj done)
  exact refl heap

/-- The leading element of a record is one of its elements or absent. -/
theorem headD_of_forall {allowed : Value → Prop} (null : allowed .null) {items : List Value}
    (all : ∀ item ∈ items, allowed item) : allowed (items.headD .null) := by
  cases items with
  | nil => exact null
  | cons first rest => exact all first List.mem_cons_self

/-- The question by which a sort compares, with a comparator that can be called or without one. -/
def questionOf (call : Caller σ) : Option Value → Value → Value → Action σ Bool
  | some function => precedesBy call function
  | none => precedesInOrder

/-- A sort empties the sequence, asks, and puts the items back in some order, after a fault in the
order they had. -/
theorem sortItems_eq_ok (relation : Heap σ → Heap σ → Prop) (allowed : Value → Prop)
    (refl : ∀ heap, relation heap heap)
    (trans : ∀ first second third, relation first second → relation second third →
      relation first third)
    {call : Caller σ} {sequence : Value} {step : Nat} {comparator : Option Value}
    (null : allowed .null)
    {heap heap' : Heap σ} (stored : ∀ item ∈ heap.children sequence, allowed item)
    (asks : ∀ function ∈ comparator, ∀ left right, allowed left → allowed right →
      (precedesBy call function left right).Keeps relation)
    {outcome : Except Fault Unit}
    (done : sortItems call sequence step comparator heap = .ok (outcome, heap')) :
    heap.items? sequence = none ∧ heap' = heap ∨
      ∃ items items' after, heap.items? sequence = some items ∧ items'.Perm items ∧
        (∀ fault, outcome = .error fault → items' = items) ∧
        relation (heap.setChildren sequence []) after ∧
        heap' = after.restoreItems sequence items' := by
  unfold sortItems at done
  split at done
  next absent =>
    obtain ⟨-, rfl⟩ := Prod.mk.inj (Except.ok.inj done)
    exact .inl ⟨absent, rfl⟩
  next items found =>
    have whole := Records.flatten_cutRecords (max step 1) (items.length / max step 1) items
    dsimp only at done
    revert whole done
    generalize Records.cutRecords (max step 1) (items.length / max step 1) items = cut
    obtain ⟨records, rest⟩ := cut
    intro done whole
    simp only at done whole
    have good : ∀ record ∈ records, ∀ item ∈ record, allowed item := by
      intro record member item inside
      apply stored
      rw [Heap.children_of_items? found, ← whole]
      exact List.mem_append_left _ (List.mem_flatten.mpr ⟨record, member, inside⟩)
    obtain ⟨⟨answer, after⟩, sorting, last⟩ := bind_eq_ok.mp done
    have asking : ∀ left right : List Value, (∀ item ∈ left, allowed item) →
        (∀ item ∈ right, allowed item) →
        (askLeading (questionOf call
          (comparator.filter (heap.setChildren sequence []).isExecutable)) left right).Keeps
            relation := by
      intro left right goodLeft goodRight
      unfold askLeading
      cases chosen : comparator.filter (heap.setChildren sequence []).isExecutable with
      | none => exact keeps_precedesInOrder refl _ _
      | some function =>
          apply asks function (Option.filter_eq_some_iff.mp chosen).1
          · exact headD_of_forall null goodLeft
          · exact headD_of_forall null goodRight
    obtain ⟨kept, perm⟩ :=
      Records.permutes_mergeSortM refl trans asking records good _ _ _ sorting
    cases answer with
    | error fault =>
        obtain ⟨-, rfl⟩ := Prod.mk.inj (Except.ok.inj last)
        exact .inr ⟨items, items, after, found, .refl items, fun _ _ => rfl, kept, rfl⟩
    | ok sorted =>
        obtain ⟨rfl, rfl⟩ := Prod.mk.inj (Except.ok.inj last)
        refine .inr ⟨items, _, after, found, ?_, nofun, kept, rfl⟩
        rw [← whole]
        exact (perm sorted rfl).flatten.append_right rest

namespace Heap

variable {heap heap' : Heap σ} {held : Multiset Value}

/-- The items leave the sequence for the ledger. -/
theorem Step.detach (sound : heap.Sound held) {sequence : Value} {items : List Value}
    (found : heap.items? sequence = some items) :
    Step {sequence} (¬heap.IsBucket sequence) heap (heap.setChildren sequence [])
      (held + ↑items) :=
  .setItems sound found (by simp) (by simp)

theorem items?_restoreItems {sequence : Value} {strays : List Value}
    (found : heap.items? sequence = some strays) (items : List Value) :
    (heap.restoreItems sequence items).items? sequence = some items := by
  rw [restoreItems, found]
  dsimp only
  rw [items?_releaseAll, items?_setChildren found]

theorem isLive_restoreItems (heap : Heap σ) (sequence : Value) (items : List Value)
    (value : Value) : (heap.restoreItems sequence items).isLive value = heap.isLive value := by
  unfold restoreItems
  split
  next =>
    rw [isLive_releaseAll, setChildren_eq_setPayload, isLive_setPayload]
  next => rfl

theorem kind_restoreItems (heap : Heap σ) (sequence : Value) (items : List Value)
    (value : Value) : (heap.restoreItems sequence items).kind value = heap.kind value := by
  unfold restoreItems
  split
  next =>
    rw [kind, payload_releaseAll, ← kind, kind_setChildren]
  next => rfl

/-- Items in the ledger take the place of what is in the sequence now. -/
theorem Step.restoreItems {sequence : Value} {items strays : List Value}
    (sound : heap.Sound (held + ↑items)) (found : heap.items? sequence = some strays)
    (durable : ∀ item ∈ items, item.isScratch = false) :
    Step {sequence} (¬heap.IsBucket sequence) heap (heap.restoreItems sequence items) held := by
  rw [Heap.restoreItems, found]
  have restoring : Step {sequence} (¬heap.IsBucket sequence) heap
      (heap.setChildren sequence items) (held + ↑strays) := by
    refine .setItems sound found ?_ fun item member => .inr (durable item member)
    abel
  exact restoring.andThen (Step.releaseAll restoring.sound).weaken

/-- The sort by the order of values. -/
theorem Step.sortItems (sound : heap.Sound held) {call : Caller σ} {sequence : Value}
    {step : Nat} {outcome : Except Fault Unit}
    (done : CountedHeap.sortItems call sequence step none heap = .ok (outcome, heap')) :
    Step {sequence} (¬heap.IsBucket sequence) heap heap' held := by
  rcases sortItems_eq_ok Eq (fun _ => True) (fun _ => rfl) (fun _ _ _ => Eq.trans) trivial
      (fun _ _ => trivial) (by simp) done with
    ⟨-, rfl⟩ | ⟨items, items', after, found, perm, -, rfl, rfl⟩
  · exact .refl _ _ sound
  · have detaching := Step.detach sound found
    have entered : (heap.setChildren sequence []).Sound (held + ↑items') := by
      rw [Multiset.coe_eq_coe.mpr perm]
      exact detaching.sound
    apply detaching.trans (Step.restoreItems entered (items?_setChildren found) ?_)
      (fun _ _ => id)
    · exact detaching.keeps.not_isBucket (sound.toConsistent.issued (isLive_of_items? found))
    · exact fun item member => durable_items sound found (perm.subset member)

end Heap

end CountedHeap
