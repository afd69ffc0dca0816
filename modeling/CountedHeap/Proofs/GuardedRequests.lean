import CountedHeap.Proofs.GuardedNumbers
import CountedHeap.Proofs.GuardedSlab
import CountedHeap.Proofs.GuardedSort
import CountedHeap.Proofs.GuardedTables
import CountedHeap.Proofs.Requests

/-!
Contract: requests, spelled by guarded steps.

Paths and registries are made of operations on sequences and on hashes, and their guarded spellings
of the guarded ones.  A request is spelled by its operation.

Owns:
- paths and registries by guarded steps;
- requests by guarded steps, and what each of them comes to.

Does not own: copying, which takes no step that could have no result but making cells.
-/

namespace CountedHeap

namespace Guarded

variable {m : Type → Type} [Monad m] {σ : Signature}

/-! ## Paths -/

/-- The value stored under a text. -/
def getText (heap : Heap σ) (table : Value) (text : String) : Guarded m Value := do
  match ← locate heap table text with
  | some (bucket, index) => return heap.getItem bucket (index + 1 : Nat)
  | none => return .null

/-- The position that a part means in a sequence. -/
def partOffset (part : String) : Guarded m Int := do
  let position ← integerPrefix part
  return position.toInt

/-- The value one step down. -/
def childAt (heap : Heap σ) (container : Value) (part : String) : Guarded m Value :=
  match heap.kind container with
  | .hash => getText heap container part
  | .array | .program => do
      let offset ← partOffset part
      return heap.getItem container offset
  | _ => return .null

/-- Follow parts down from a value. -/
def follow (heap : Heap σ) : Value → List String → Guarded m Value
  | current, [] => return current
  | current, part :: rest =>
      if (heap.kind current).isMulti then do
        let next ← childAt heap current part
        follow heap next rest
      else return .null

/-- The value at a path. -/
def getPath (heap : Heap σ) (root path : Value) : Guarded m Value :=
  follow heap root (heap.pathParts path)

/-- Store a value one step down. -/
def putChild (heap : Heap σ) (container : Value) (part : String) (value : Value) :
    Guarded (Except Exhausted) (Value × Heap σ) :=
  match heap.kind container with
  | .hash =>
      let (key, heap) := heap.scratchString part
      setKey heap container key value
  | .array | .program => do
      let offset ← partOffset part
      setItem heap container value offset
  | _ => return (.null, heap)

/-- Walk down and store a value under the last part. -/
def storeBelow : Value → List String → Value → Heap σ →
    Guarded (Except Exhausted) (Value × Heap σ)
  | _, [], _, heap => return (.null, heap)
  | current, part :: rest, value, heap =>
      if heap.hasPlaceFor current part then
        match rest with
        | [] => putChild heap current part value
        | _ :: _ => do
            let next ← childAt heap current part
            let kind := heap.kind next
            if kind = .null then do
              let (next, heap) := heap.hash
              let (_, heap) ← putChild heap current part next
              storeBelow next rest value heap
            else if kind.isMulti then storeBelow next rest value heap
            else return (.null, heap)
      else return (.null, heap)

/-- Run an operation in a scope of its own. -/
def inScope {α : Type} (heap : Heap σ)
    (body : Heap σ → Guarded (Except Exhausted) (α × Heap σ)) :
    Guarded (Except Exhausted) (α × Heap σ) := do
  let (answer, after) ← body heap
  let unwound ← unwind after heap.scratch.size
  return (answer, unwound)

/-- Store a value at a path. -/
def setPath (heap : Heap σ) (root path value : Value) :
    Guarded (Except Exhausted) (Value × Heap σ) :=
  inScope heap (storeBelow root (heap.pathParts path) value)

/-- Store the entries of a registry in a hash. -/
def installEntries (table : Value) :
    List (String × Function σ) → Heap σ → Guarded (Except Exhausted) (Heap σ)
  | [], heap => return heap
  | (name, function) :: rest, heap => do
      let (callable, heap) := heap.native function
      let (key, heap) := heap.scratchString name
      let (_, heap) ← setKey heap table key callable
      installEntries table rest heap

/-- Store every entry of a registry in a hash and answer how many there were. -/
def installInto (registry : Registry σ) (heap : Heap σ) (table : Value) :
    Guarded (Except Exhausted) (Nat × Heap σ) :=
  if heap.kind table = .hash then
    inScope heap fun heap => do
      let heap ← installEntries table registry.entries heap
      return (registry.size, heap)
  else return (0, heap)

/-! ### None of them missteps -/

section Paths

variable [LawfulMonad m]

theorem getText_eq (heap : Heap σ) (table : Value) (text : String) :
    getText heap table text = (pure (heap.getText table text) : Guarded m Value) := by
  unfold getText Heap.getText
  rw [locate_eq, pure_bind]
  cases heap.locate? table text <;> rfl

theorem partOffset_eq (part : String) :
    partOffset part = (pure (Heap.partOffset part) : Guarded m Int) := by
  rw [partOffset, integerPrefix_eq, pure_bind, Heap.partOffset]

theorem childAt_eq (heap : Heap σ) (container : Value) (part : String) :
    childAt heap container part = (pure (heap.childAt container part) : Guarded m Value) := by
  unfold childAt Heap.childAt
  cases heap.kind container with
  | hash => exact getText_eq heap container part
  | array | program =>
      dsimp only
      rw [partOffset_eq, pure_bind]
  | _ => rfl

theorem follow_eq (heap : Heap σ) (current : Value) (parts : List String) :
    follow heap current parts = (pure (heap.follow current parts) : Guarded m Value) := by
  induction parts generalizing current with
  | nil => rfl
  | cons part rest inductionHypothesis =>
      unfold follow Heap.follow
      split
      next => rw [childAt_eq, pure_bind, inductionHypothesis]
      next => rfl

theorem getPath_eq (heap : Heap σ) (root path : Value) :
    getPath heap root path = (pure (heap.getPath root path) : Guarded m Value) :=
  follow_eq heap root (heap.pathParts path)

theorem putChild_eq (heap : Heap σ) (container : Value) (part : String) (value : Value) :
    putChild heap container part value = liftM (heap.putChild container part value) := by
  unfold putChild Heap.putChild
  cases heap.kind container with
  | hash => exact setKey_eq _ container _ value
  | array | program =>
      dsimp only
      rw [partOffset_eq, pure_bind, setItem_eq]
  | _ => rfl

theorem storeBelow_eq (current : Value) (parts : List String) (value : Value) (heap : Heap σ) :
    storeBelow current parts value heap = liftM (Heap.storeBelow current parts value heap) := by
  induction parts generalizing current heap with
  | nil => rfl
  | cons part rest inductionHypothesis =>
      unfold storeBelow Heap.storeBelow
      split
      next =>
        cases rest with
        | nil => exact putChild_eq heap current part value
        | cons second others =>
            dsimp only
            rw [childAt_eq, pure_bind]
            split
            next =>
              rw [putChild_eq]
              exact liftM_bind_eq fun made _ => inductionHypothesis _ _
            next =>
              split
              next => exact inductionHypothesis _ _
              next => rfl
      next => rfl

theorem inScope_eq {α : Type} {body : Heap σ → Guarded (Except Exhausted) (α × Heap σ)}
    {body' : Heap σ → Except Exhausted (α × Heap σ)}
    (same : ∀ heap, body heap = liftM (body' heap)) (heap : Heap σ) :
    inScope heap body = liftM (heap.inScope body') := by
  unfold inScope Heap.inScope
  rw [same]
  refine liftM_bind_eq fun ran _ => ?_
  obtain ⟨answer, after⟩ := ran
  dsimp only
  rw [unwind_eq, pure_bind]
  rfl

theorem setPath_eq (heap : Heap σ) (root path value : Value) :
    setPath heap root path value = liftM (heap.setPath root path value) :=
  inScope_eq (storeBelow_eq root _ value) heap

theorem installEntries_eq (table : Value) (entries : List (String × Function σ))
    (heap : Heap σ) :
    installEntries table entries heap = liftM (Registry.installEntries table entries heap) := by
  induction entries generalizing heap with
  | nil => rfl
  | cons entry rest inductionHypothesis =>
      unfold installEntries Registry.installEntries
      dsimp only
      rw [setKey_eq]
      exact liftM_bind_eq fun stored _ => inductionHypothesis _

theorem installInto_eq (registry : Registry σ) (heap : Heap σ) (table : Value) :
    installInto registry heap table = liftM (registry.installInto heap table) := by
  unfold installInto Registry.installInto
  split
  next =>
    refine inScope_eq (fun heap => ?_) heap
    rw [installEntries_eq]
    exact liftM_bind_eq fun installed _ => rfl
  next => rfl

end Paths

/-! ## Requests -/

/-- The heap after an operation, without its answer. -/
def settle {α : Type} (run : Guarded (Except Exhausted) (α × Heap σ)) :
    Guarded (Except Exhausted) (Heap σ) := do
  let (_, heap) ← run
  return heap

/-- The heap after an operation that calls, whether or not it raised a fault. -/
def settleAction {α : Type} (run : Guarded (Action σ) α) (heap : Heap σ) :
    Guarded (Except Exhausted) (Heap σ) := do
  let ((outcome, after) : Except Fault (Except Misstep α) × Heap σ) ← liftM (run heap)
  match outcome with
  | .ok (.error misstep) => throw misstep
  | _ => return after

/-- The heap after a request. -/
def perform (heap : Heap σ) : Request σ → Guarded (Except Exhausted) (Heap σ)
  | .string content => settle (create heap (.text content))
  | .int content => settle (create heap (.int content))
  | .real content => settle (create heap (.real content))
  | .nullCell => settle (create heap .null)
  | .hash => settle (create heap (.hash {}))
  | .file path => settle (create heap (.file path))
  | .native function => settle (create heap (.exec (.plain function)))
  | .expandItems sequence offset count => settle (expandItems heap sequence offset count)
  | .collapseItems sequence offset count => settle (collapseItems heap sequence offset count)
  | .setItem sequence element offset => settle (setItem heap sequence element offset)
  | .insertItem sequence element offset => settle (insertItem heap sequence element offset)
  | .deleteItem sequence offset => settle (deleteItem heap sequence offset)
  | .pushItem sequence element =>
      settle (insertItem heap sequence element (heap.size sequence))
  | .popItem sequence => settle (deleteItem heap sequence (-1))
  | .queueItem sequence element capacity => settle (queueItem heap sequence element capacity)
  | .sliceItems sequence offset count => settle (sliceItems heap sequence offset count)
  | .spliceItems sequence offset count inserted =>
      settle (spliceItems heap sequence offset count inserted)
  | .sortItems sequence step => settleAction (sortItems idleCaller sequence step none) heap
  | .setKey table key value => settle (setKey heap table key value)
  | .eraseKey table key => settle (eraseKey heap table key)
  | .setPath root path value => settle (setPath heap root path value)
  | .split separator text => settle (split heap separator text)
  | .splice text inserted offset length => settle (splice heap text inserted offset length)
  | .install registry table => settle (installInto registry heap table)
  | request => liftM (heap.perform request)

/-- A request whose offset is a number of 64 bits, as the size of its text is. -/
def Measured (heap : Heap σ) : Request σ → Prop
  | .splice text _ offset _ =>
      ((heap.text text).utf8ByteSize : Int) ≤ Int64.maxValue.toInt ∧
        Int64.minValue.toInt ≤ offset
  | _ => True

theorem settle_eq {α : Type} {run : Guarded (Except Exhausted) (α × Heap σ)}
    {run' : Except Exhausted (α × Heap σ)} (same : run = liftM run') :
    settle run = liftM (Heap.settle run') := by
  rw [settle, same]
  exact liftM_bind_eq fun answer _ => rfl

theorem settle_pure {α : Type} {run : Guarded (Except Exhausted) (α × Heap σ)}
    {answer : α × Heap σ} (same : run = pure answer) :
    settle run = liftM (.ok answer.2 : Except Exhausted (Heap σ)) := by
  rw [settle, same]
  rfl

theorem settleAction_eq {α : Type} {run : Guarded (Action σ) α} {run' : Action σ α}
    (same : run = liftM run') (heap : Heap σ) :
    settleAction run heap = liftM (Heap.settle (run' heap)) := by
  unfold settleAction
  rw [same, run_liftM]
  cases run' heap with
  | error reason => rfl
  | ok ran =>
      obtain ⟨outcome, after⟩ := ran
      cases outcome <;> rfl

/-- A request comes to what it should, if the books of the slab are in order and hashes count
their pairs. -/
theorem perform_eq {heap : Heap σ} (ordered : heap.SlabOrdered)
    (counted : ∀ table key, heap.removeKey table key = .ok (heap.eraseKey table key))
    {request : Request σ} (measured : Measured heap request) :
    perform heap request = liftM (heap.perform request) := by
  cases request with
  | string | int | real | nullCell | hash | file | native =>
      exact settle_pure (create_eq ordered _)
  | expandItems sequence offset count => exact settle_eq (expandItems_eq heap _ _ _)
  | collapseItems sequence offset count => exact settle_pure (collapseItems_eq heap _ _ _)
  | setItem sequence element offset => exact settle_eq (setItem_eq heap _ _ _)
  | insertItem sequence element offset => exact settle_eq (insertItem_eq heap _ _ _)
  | deleteItem sequence offset => exact settle_pure (deleteItem_eq heap _ _)
  | pushItem sequence element => exact settle_eq (insertItem_eq heap _ _ _)
  | popItem sequence => exact settle_pure (deleteItem_eq heap _ _)
  | queueItem sequence element capacity => exact settle_eq (queueItem_eq heap _ _ _)
  | sliceItems sequence offset count => exact settle_pure (sliceItems_eq heap _ _ _)
  | spliceItems sequence offset count inserted => exact settle_eq (spliceItems_eq heap _ _ _ _)
  | sortItems sequence step => exact settleAction_eq (sortItems_eq idleCaller _ _ _) heap
  | setKey table key value => exact settle_eq (setKey_eq heap _ _ _)
  | eraseKey table key => exact settle_pure (eraseKey_eq (counted table key))
  | setPath root path value => exact settle_eq (setPath_eq heap _ _ _)
  | split separator text => exact settle_eq (split_eq heap _ _)
  | splice text inserted offset length =>
      exact settle_pure (splice_eq measured.1 inserted measured.2 length)
  | install registry table => exact settle_eq (installInto_eq registry heap _)
  | _ => rfl

end Guarded

end CountedHeap
