import CountedHeap.Proofs.ListView

/-!
Contract: operations on lists, spelled by steps that may have no result.

The definitions of this library are total: a list is asked for an element that it may not have, a
range is cut to the list, a difference stops at zero.  Here the same operations are spelled by steps
that say so when there is nothing to answer.  An operation that equals its guarded spelling never
takes such a step.

Owns:
- missteps, and the steps on lists and numbers that can be one;
- the operations on sequences by these steps, and that none of them missteps on any heap.

Does not own: running out of room, which is no misstep.
-/

namespace CountedHeap

/-- Why a step has no result. -/
inductive Misstep where
  /-- An element that is not there. -/
  | element
  /-- A range that ends before it begins, or outside the list. -/
  | range
  /-- A rotation by more than the length. -/
  | rotation
  /-- A difference below zero. -/
  | difference
  /-- A remainder by zero. -/
  | remainder
  /-- A sum outside 64 bits, or limits in the wrong order. -/
  | overflow
  /-- A cut inside a character. -/
  | boundary
deriving DecidableEq, Repr

/-- A computation that ends at its first misstep. -/
abbrev Guarded (m : Type → Type) (α : Type) : Type :=
  ExceptT Misstep m α

namespace Guarded

section Steps

variable {m : Type → Type} [Monad m] {α : Type}

/-- The element at an index. -/
def element (items : List α) (index : Nat) : Guarded m α :=
  match items[index]? with
  | some item => pure item
  | none => throw .element

/-- The list with another element at an index. -/
def store (items : List α) (index : Nat) (item : α) : Guarded m (List α) :=
  if index < items.length then pure (items.set index item) else throw .element

/-- The elements from `first` up to `last`. -/
def range (items : List α) (first last : Nat) : Guarded m (List α) :=
  if first ≤ last ∧ last ≤ items.length then pure ((items.take last).drop first)
  else throw .range

/-- The elements from `first` up to `last`, and the list without them. -/
def drain (items : List α) (first last : Nat) : Guarded m (List α × List α) := do
  let removed ← range items first last
  return (removed, items.take first ++ items.drop last)

/-- The list with its last `count` elements moved to the front. -/
def rotate (items : List α) (count : Nat) : Guarded m (List α) :=
  if count ≤ items.length then pure (items.rotateRight count) else throw .rotation

/-- The difference of two counts. -/
def minus (whole part : Nat) : Guarded m Nat :=
  if part ≤ whole then pure (whole - part) else throw .difference

/-- The remainder of a division. -/
def modulo (number divisor : Nat) : Guarded m Nat :=
  if divisor = 0 then throw .remainder else pure (number % divisor)

theorem element_eq {items : List α} {index : Nat} {item : α} (found : items[index]? = some item) :
    element items index = (pure item : Guarded m α) := by
  rw [element, found]

theorem store_eq {items : List α} {index : Nat} (inside : index < items.length) (item : α) :
    store items index item = (pure (items.set index item) : Guarded m (List α)) :=
  if_pos inside

theorem range_eq {items : List α} {first last : Nat} (ordered : first ≤ last)
    (inside : last ≤ items.length) :
    range items first last = (pure ((items.take last).drop first) : Guarded m (List α)) :=
  if_pos ⟨ordered, inside⟩

theorem rotate_eq {items : List α} {count : Nat} (fits : count ≤ items.length) :
    rotate items count = (pure (items.rotateRight count) : Guarded m (List α)) :=
  if_pos fits

theorem minus_eq {whole part : Nat} (less : part ≤ whole) :
    minus whole part = (pure (whole - part) : Guarded m Nat) :=
  if_pos less

theorem modulo_eq {divisor : Nat} (positive : 0 < divisor) (number : Nat) :
    modulo number divisor = (pure (number % divisor) : Guarded m Nat) :=
  if_neg (Nat.ne_of_gt positive)

/-- The elements from `first` up to `first + count`, as far as there are any. -/
theorem drop_take_min (items : List α) (first count : Nat) :
    (items.take (min (first + count) items.length)).drop first = (items.drop first).take count := by
  rw [List.drop_take, ← Nat.sub_min_sub_right, Nat.add_sub_cancel_left, ← List.length_drop,
    ← List.take_eq_take_min]

theorem range_take_eq {items : List α} {first : Nat} (inside : first ≤ items.length)
    (count : Nat) :
    range items first (min (first + count) items.length) =
      (pure ((items.drop first).take count) : Guarded m (List α)) := by
  rw [range_eq (by omega) (by omega), drop_take_min]

theorem drain_eq [LawfulMonad m] {items : List α} {first : Nat} (inside : first ≤ items.length)
    (count : Nat) :
    drain items first (min (first + count) items.length) =
      (pure ((items.drop first).take count, items.take first ++ items.drop (first + count)) :
        Guarded m (List α × List α)) := by
  rw [drain, range_take_eq inside, pure_bind]
  congr 3
  by_cases past : items.length ≤ first + count
  · rw [Nat.min_eq_right past, List.drop_length, List.drop_eq_nil_of_le past]
  · rw [Nat.min_eq_left (by omega)]

/-- The position that an offset means in a list of `length` elements. -/
def position (length : Nat) (offset : Int) : Guarded m (Option Nat) :=
  if 0 ≤ offset then pure (some offset.toNat)
  else if offset.natAbs ≤ length then some <$> minus length offset.natAbs
  else pure none

theorem position_eq [LawfulMonad m] (length : Nat) (offset : Int) :
    position length offset = (pure (position? length offset) : Guarded m (Option Nat)) := by
  unfold position position?
  split
  · rfl
  · split
    next less => rw [minus_eq less, map_pure]
    next => rfl

theorem liftM_ok {ε : Type} (answer : α) :
    (liftM (.ok answer : Except ε α) : Guarded (Except ε) α) = pure answer := rfl

/-- A part that is not guarded comes before a part that never missteps. -/
theorem liftM_bind_eq {ε β : Type} {first : Except ε α} {guarded : α → Guarded (Except ε) β}
    {rest : α → Except ε β}
    (same : ∀ answer, first = .ok answer → guarded answer = liftM (rest answer)) :
    (liftM first >>= guarded : Guarded (Except ε) β) = liftM (first >>= rest) := by
  cases first with
  | error reason => rfl
  | ok answer => exact same answer rfl

end Steps

/-! ## Sequences -/

section Sequences

variable {σ : Signature}

/-- Open a gap: pad the list up to the position, then at the end, and rotate the tail. -/
def expandItems (heap : Heap σ) (sequence : Value) (offset : Int) (count : Nat) :
    Guarded (Except Exhausted) (Bool × Heap σ) :=
  match heap.items? sequence with
  | none => return (false, heap)
  | some items => do
      match ← position items.length offset with
      | none => return (false, heap)
      | some index =>
          let reached ← liftM (padTo index items)
          let grown ← liftM (padTo (reached.length + count) reached)
          let tail ← range grown index grown.length
          let rotated ← rotate tail count
          return (true, heap.setChildren sequence (grown.take index ++ rotated))

/-- Close a gap. -/
def collapseItems (heap : Heap σ) (sequence : Value) (offset : Int) (count : Nat) :
    Guarded (Except Exhausted) (Nat × Heap σ) :=
  match heap.items? sequence with
  | none => return (0, heap)
  | some items => do
      match (← position items.length offset).filter (· < items.length) with
      | none => return (0, heap)
      | some index =>
          let (removed, kept) ← drain items index (min (index + count) items.length)
          return (removed.length, (heap.setChildren sequence kept).releaseAll removed)

/-- Store an element at a position. -/
def setItem (heap : Heap σ) (sequence element : Value) (offset : Int) :
    Guarded (Except Exhausted) (Value × Heap σ) :=
  match heap.items? sequence with
  | none => return (.null, heap)
  | some items => do
      match ← position items.length offset with
      | none => return (.null, heap)
      | some index =>
          let (owned, heap) := heap.own element
          match heap.items? sequence with
          | none => return (.null, heap)
          | some items =>
              let reached ← liftM (padTo (index + 1) items)
              let previous ← Guarded.element reached index
              let stored ← store reached index owned
              return (previous,
                ((heap.setChildren sequence stored).retain owned).release previous)

/-- Insert an element before a position. -/
def insertItem (heap : Heap σ) (sequence element : Value) (offset : Int) :
    Guarded (Except Exhausted) (Value × Heap σ) :=
  match heap.items? sequence with
  | none => return (.null, heap)
  | some items => do
      match ← position items.length offset with
      | none => return (.null, heap)
      | some index =>
          let (owned, heap) := heap.own element
          let (_, heap) ← expandItems heap sequence index 1
          let (_, heap) ← setItem heap sequence owned index
          return (owned, heap)

/-- Remove the element at a position. -/
def deleteItem (heap : Heap σ) (sequence : Value) (offset : Int) :
    Guarded (Except Exhausted) (Value × Heap σ) :=
  match heap.items? sequence with
  | none => return (.null, heap)
  | some items => do
      match (← position items.length offset).filter (· < items.length) with
      | none => return (.null, heap)
      | some index =>
          let removed := heap.getItem sequence index
          let (_, heap) ← collapseItems heap sequence index 1
          return (removed, heap)

/-- Remove elements from the front, one by one. -/
def evictItems (sequence : Value) :
    Nat → Value → Heap σ → Guarded (Except Exhausted) (Value × Heap σ)
  | 0, evicted, heap => return (evicted, heap)
  | count + 1, evicted, heap => do
      let (removed, heap) ← deleteItem heap sequence 0
      evictItems sequence count (if evicted.isNull then removed else evicted) heap

/-- Push onto a queue of at most `capacity` elements. -/
def queueItem (heap : Heap σ) (sequence element : Value) (capacity : Nat) :
    Guarded (Except Exhausted) (Value × Heap σ) :=
  match heap.items? sequence with
  | none => return (.null, heap)
  | some items =>
      if capacity = 0 then return (.null, heap)
      else do
        let (evicted, heap) ← evictItems sequence (items.length + 1 - capacity) .null heap
        let (_, heap) ← insertItem heap sequence element (heap.size sequence)
        return (evicted, heap)

/-- A new array of a range. -/
def sliceItems (heap : Heap σ) (sequence : Value) (offset : Int) (count : Nat) :
    Guarded (Except Exhausted) (Value × Heap σ) :=
  match heap.items? sequence with
  | none => return (.null, heap)
  | some items => do
      match (← position items.length offset).filter (· < items.length) with
      | none => return heap.arrayOf []
      | some index => return heap.arrayOf (← range items index (min (index + count) items.length))

/-- Store the elements of a list one after another. -/
def setItemsFrom (sequence : Value) :
    Nat → List Value → Heap σ → Guarded (Except Exhausted) (Heap σ)
  | _, [], heap => return heap
  | index, element :: rest, heap => do
      let (_, heap) ← setItem heap sequence element index
      setItemsFrom sequence (index + 1) rest heap

/-- Replace a range by the elements of a list. -/
def spliceItems (heap : Heap σ) (sequence : Value) (offset : Int) (count : Nat)
    (inserted : List Value) : Guarded (Except Exhausted) (Value × Heap σ) :=
  match heap.items? sequence with
  | none => return (.null, heap)
  | some items => do
      match ← position items.length offset with
      | none => return (.null, heap)
      | some index =>
          let (removed, heap) ← sliceItems heap sequence index count
          let (_, heap) ← collapseItems heap sequence index count
          let (_, heap) ← expandItems heap sequence index inserted.length
          let heap ← setItemsFrom sequence index inserted heap
          return (removed, heap)

/-! ### None of them missteps -/

theorem expandItems_eq (heap : Heap σ) (sequence : Value) (offset : Int) (count : Nat) :
    expandItems heap sequence offset count =
      liftM (heap.expandItems sequence offset count) := by
  unfold expandItems Heap.expandItems
  cases heap.items? sequence with
  | none => rfl
  | some items =>
      dsimp only
      rw [position_eq, pure_bind]
      cases position? items.length offset with
      | none => rfl
      | some index =>
          refine liftM_bind_eq fun reached reaching => ?_
          refine liftM_bind_eq fun grown growing => ?_
          have reachedLength := length_padTo reaching
          have grownLength := length_padTo growing
          have fits : count ≤ ((grown.take grown.length).drop index).length := by
            rw [List.take_length, List.length_drop]
            omega
          rw [range_eq (by omega) (Nat.le_refl _), pure_bind, rotate_eq fits, pure_bind,
            List.take_length]
          rfl

theorem collapseItems_eq (heap : Heap σ) (sequence : Value) (offset : Int) (count : Nat) :
    collapseItems heap sequence offset count =
      pure (heap.collapseItems sequence offset count) := by
  unfold collapseItems
  cases found : heap.items? sequence with
  | none =>
      rw [Heap.collapseItems, found]
  | some items =>
      dsimp only
      rw [position_eq, pure_bind]
      cases meant : position? items.length offset with
      | none =>
          rw [Heap.collapseItems, found]
          dsimp only
          rw [meant]
          rfl
      | some index =>
          by_cases inside : index < items.length
          · rw [Option.filter_some, if_pos (decide_eq_true inside)]
            dsimp only
            rw [drain_eq (Nat.le_of_lt inside), pure_bind, Heap.collapseItems, found]
            dsimp only
            rw [meant]
          · rw [Option.filter_some, if_neg (by simpa using inside),
              Heap.collapseItems_of_le found meant (Nat.le_of_not_lt inside)]

theorem setItem_eq (heap : Heap σ) (sequence element : Value) (offset : Int) :
    setItem heap sequence element offset = liftM (heap.setItem sequence element offset) := by
  unfold setItem Heap.setItem
  cases found : heap.items? sequence with
  | none =>
      rw [Heap.itemPosition?, found]
      rfl
  | some items =>
      rw [Heap.itemPosition?_of_items? found]
      dsimp only
      rw [position_eq, pure_bind]
      cases position? items.length offset with
      | none => rfl
      | some index =>
          dsimp only
          cases (heap.own element).2.items? sequence with
          | none => rfl
          | some items =>
              refine liftM_bind_eq fun reached reaching => ?_
              have inside : index < reached.length := by
                have length := length_padTo reaching
                omega
              have present := List.getElem?_eq_getElem inside
              rw [element_eq present, pure_bind, store_eq inside, pure_bind, Heap.replaceItem,
                present]
              rfl

theorem insertItem_eq (heap : Heap σ) (sequence element : Value) (offset : Int) :
    insertItem heap sequence element offset =
      liftM (heap.insertItem sequence element offset) := by
  unfold insertItem Heap.insertItem
  cases found : heap.items? sequence with
  | none =>
      rw [Heap.itemPosition?, found]
      rfl
  | some items =>
      rw [Heap.itemPosition?_of_items? found]
      dsimp only
      rw [position_eq, pure_bind]
      cases position? items.length offset with
      | none => rfl
      | some index =>
          dsimp only
          rw [expandItems_eq]
          refine liftM_bind_eq fun opened _ => ?_
          rw [setItem_eq]
          exact liftM_bind_eq fun _ _ => rfl

theorem deleteItem_eq (heap : Heap σ) (sequence : Value) (offset : Int) :
    deleteItem heap sequence offset = pure (heap.deleteItem sequence offset) := by
  unfold deleteItem
  cases found : heap.items? sequence with
  | none => rw [Heap.deleteItem, Heap.itemPosition?, found]; rfl
  | some items =>
      dsimp only
      rw [position_eq, pure_bind]
      cases meant : position? items.length offset with
      | none => rw [Heap.deleteItem, Heap.itemPosition?_of_items? found, meant]; rfl
      | some index =>
          by_cases inside : index < items.length
          · rw [Option.filter_some, if_pos (decide_eq_true inside)]
            dsimp only
            rw [collapseItems_eq, pure_bind, Heap.deleteItem, Heap.itemPosition?_of_items? found,
              meant]
          · rw [Option.filter_some, if_neg (by simpa using inside),
              Heap.deleteItem_of_le found meant (Nat.le_of_not_lt inside)]

theorem evictItems_eq (sequence : Value) (count : Nat) (evicted : Value) (heap : Heap σ) :
    evictItems sequence count evicted heap =
      pure (Heap.evictItems sequence count evicted heap) := by
  induction count generalizing evicted heap with
  | zero => rfl
  | succ count inductionHypothesis =>
      rw [evictItems, deleteItem_eq, pure_bind]
      exact inductionHypothesis _ _

theorem queueItem_eq (heap : Heap σ) (sequence element : Value) (capacity : Nat) :
    queueItem heap sequence element capacity =
      liftM (heap.queueItem sequence element capacity) := by
  unfold queueItem Heap.queueItem
  cases heap.items? sequence with
  | none => rfl
  | some items =>
      dsimp only
      split
      · rfl
      · rw [evictItems_eq, pure_bind, insertItem_eq]
        exact liftM_bind_eq fun _ _ => rfl

theorem sliceItems_eq (heap : Heap σ) (sequence : Value) (offset : Int) (count : Nat) :
    sliceItems heap sequence offset count = pure (heap.sliceItems sequence offset count) := by
  unfold sliceItems Heap.sliceItems
  cases heap.items? sequence with
  | none => rfl
  | some items =>
      dsimp only
      rw [position_eq, pure_bind]
      cases position? items.length offset with
      | none => rfl
      | some index =>
          by_cases inside : index < items.length
          · rw [Option.filter_some, if_pos (decide_eq_true inside)]
            dsimp only
            rw [range_take_eq (Nat.le_of_lt inside), pure_bind]
          · rw [Option.filter_some, if_neg (by simpa using inside)]
            dsimp only
            rw [List.drop_eq_nil_of_le (Nat.le_of_not_lt inside), List.take_nil]

theorem setItemsFrom_eq (sequence : Value) (index : Nat) (elements : List Value)
    (heap : Heap σ) :
    setItemsFrom sequence index elements heap =
      liftM (Heap.setItemsFrom sequence index elements heap) := by
  induction elements generalizing index heap with
  | nil => rfl
  | cons element rest inductionHypothesis =>
      rw [setItemsFrom, setItem_eq]
      exact liftM_bind_eq fun stored _ => inductionHypothesis _ _

theorem spliceItems_eq (heap : Heap σ) (sequence : Value) (offset : Int) (count : Nat)
    (inserted : List Value) :
    spliceItems heap sequence offset count inserted =
      liftM (heap.spliceItems sequence offset count inserted) := by
  unfold spliceItems Heap.spliceItems
  cases found : heap.items? sequence with
  | none =>
      rw [Heap.itemPosition?, found]
      rfl
  | some items =>
      rw [Heap.itemPosition?_of_items? found]
      dsimp only
      rw [position_eq, pure_bind]
      cases position? items.length offset with
      | none => rfl
      | some index =>
          dsimp only
          rw [sliceItems_eq, pure_bind, collapseItems_eq, pure_bind, expandItems_eq]
          refine liftM_bind_eq fun opened _ => ?_
          rw [setItemsFrom_eq]
          exact liftM_bind_eq fun _ _ => rfl

end Sequences

end Guarded

end CountedHeap
