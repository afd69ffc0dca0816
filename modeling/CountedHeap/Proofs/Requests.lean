import CountedHeap.Proofs.Paths
import CountedHeap.Proofs.Sorting
import CountedHeap.Proofs.Strings

/-!
Contract: everything a program can ask of a heap that runs no callable and gives up no cell.

Owns:
- `Request` and what performing one does to the heap;
- the handles a request names, and the one container it may write;
- every request is a step.

Does not own: collection, scopes and calls, which are not requests.  Nor is `create` with a payload
that the program put together by hand: it would store references that nobody retained.  A cell is
made by the constructor of its kind, by storing or by copying.
-/

namespace CountedHeap

variable {σ : Signature}

/-- An operation with its arguments. -/
inductive Request (σ : Signature) where
  | string (content : String)
  | int (content : Int64)
  | real (content : Float)
  | nullCell
  | hash
  | file (path : String)
  | native (function : Function σ)
  | closure (name : σ.Closure) (auxiliary : Value)
  | array (capacity : Nat)
  | arrayOf (items : List Value)
  | program (items : List Value)
  | scratchString (content : String)
  | scratchInt (content : Int64)
  | scratchReal (content : Float)
  | scratchArray (capacity : Nat)
  | own (value : Value)
  | clone (value : Value)
  | expandItems (sequence : Value) (offset : Int) (count : Nat)
  | collapseItems (sequence : Value) (offset : Int) (count : Nat)
  | setItem (sequence element : Value) (offset : Int)
  | insertItem (sequence element : Value) (offset : Int)
  | deleteItem (sequence : Value) (offset : Int)
  | pushItem (sequence element : Value)
  | popItem (sequence : Value)
  | queueItem (sequence element : Value) (capacity : Nat)
  | sliceItems (sequence : Value) (offset : Int) (count : Nat)
  | spliceItems (sequence : Value) (offset : Int) (count : Nat) (inserted : List Value)
  | reverseItems (sequence : Value)
  /-- Sorting by the order of values. -/
  | sortItems (sequence : Value) (step : Nat)
  | setKey (table key value : Value)
  | eraseKey (table key : Value)
  | keys (table : Value)
  | values (table : Value)
  | setPath (root path value : Value)
  | split (separator text : Value)
  | join (separator sequence : Value)
  | splice (text inserted : Value) (offset length : Int)
  | install (registry : Registry σ) (table : Value)
  | setSweepBatch (count : Nat)
  | setLowWater (count : Nat)

namespace Request

/-- The handles among the arguments. -/
def handles : Request σ → List Value
  | .string _ | .int _ | .real _ | .nullCell | .hash | .file _ | .native _ | .array _
  | .scratchString _ | .scratchInt _ | .scratchReal _ | .scratchArray _
  | .setSweepBatch _ | .setLowWater _ => []
  | .closure _ value | .own value | .clone value => [value]
  | .arrayOf items | .program items => items
  | .expandItems sequence _ _ | .collapseItems sequence _ _ | .deleteItem sequence _
  | .popItem sequence | .sliceItems sequence _ _ | .reverseItems sequence
  | .sortItems sequence _ => [sequence]
  | .setItem sequence element _ | .insertItem sequence element _ | .pushItem sequence element
  | .queueItem sequence element _ => [sequence, element]
  | .spliceItems sequence _ _ inserted => sequence :: inserted
  | .setKey table key value => [table, key, value]
  | .eraseKey table key => [table, key]
  | .keys table | .values table | .install _ table => [table]
  | .setPath root path value => [root, path, value]
  | .split separator text => [separator, text]
  | .join separator sequence => [separator, sequence]
  | .splice text inserted _ _ => [text, inserted]

/-- The key that a request may store as it is given. -/
def key? : Request σ → Option Value
  | .setKey _ key _ => some key
  | _ => none

end Request

/-- A caller that is never asked for anything. -/
def idleCaller : Caller σ :=
  fun _ _ => return .null

namespace Heap

/-- The heap after an operation, without its answer. -/
def settle {α : Type} (run : Except Exhausted (α × Heap σ)) : Except Exhausted (Heap σ) := do
  let (_, heap) ← run
  return heap

/-- The heap after a request, unless the run is exhausted. -/
def perform (heap : Heap σ) : Request σ → Except Exhausted (Heap σ)
  | .string content => .ok (heap.string content).2
  | .int content => .ok (heap.int content).2
  | .real content => .ok (heap.real content).2
  | .nullCell => .ok heap.nullCell.2
  | .hash => .ok heap.hash.2
  | .file path => .ok (heap.file path).2
  | .native function => .ok (heap.native function).2
  | .closure name auxiliary => .ok (heap.closure name auxiliary).2
  | .array capacity => settle (heap.array capacity)
  | .arrayOf items => .ok (heap.arrayOf items).2
  | .program items => .ok (heap.program items).2
  | .scratchString content => .ok (heap.scratchString content).2
  | .scratchInt content => .ok (heap.scratchInt content).2
  | .scratchReal content => .ok (heap.scratchReal content).2
  | .scratchArray capacity => settle (heap.scratchArray capacity)
  | .own value => .ok (heap.own value).2
  | .clone value => .ok (heap.clone value).2
  | .expandItems sequence offset count => settle (heap.expandItems sequence offset count)
  | .collapseItems sequence offset count => .ok (heap.collapseItems sequence offset count).2
  | .setItem sequence element offset => settle (heap.setItem sequence element offset)
  | .insertItem sequence element offset => settle (heap.insertItem sequence element offset)
  | .deleteItem sequence offset => .ok (heap.deleteItem sequence offset).2
  | .pushItem sequence element => settle (heap.pushItem sequence element)
  | .popItem sequence => .ok (heap.popItem sequence).2
  | .queueItem sequence element capacity => settle (heap.queueItem sequence element capacity)
  | .sliceItems sequence offset count => .ok (heap.sliceItems sequence offset count).2
  | .spliceItems sequence offset count inserted =>
      settle (heap.spliceItems sequence offset count inserted)
  | .reverseItems sequence => .ok (heap.reverseItems sequence).2
  | .sortItems sequence step => settle (CountedHeap.sortItems idleCaller sequence step none heap)
  | .setKey table key value => settle (heap.setKey table key value)
  | .eraseKey table key => .ok (heap.eraseKey table key).2
  | .keys table => .ok (heap.keys table).2
  | .values table => .ok (heap.values table).2
  | .setPath root path value => settle (heap.setPath root path value)
  | .split separator text => settle (heap.split separator text)
  | .join separator sequence => .ok (heap.join separator sequence).2
  | .splice text inserted offset length => .ok (heap.splice text inserted offset length).2
  | .install registry table => settle (registry.installInto heap table)
  | .setSweepBatch count => .ok (heap.setSweepBatch count)
  | .setLowWater count => .ok (heap.setLowWater count)

/-- The container that a request may write, or the absent value. -/
def site (heap : Heap σ) : Request σ → Value
  | .expandItems sequence _ _ | .collapseItems sequence _ _ | .setItem sequence _ _
  | .insertItem sequence _ _ | .deleteItem sequence _ | .pushItem sequence _ | .popItem sequence
  | .queueItem sequence _ _ | .spliceItems sequence _ _ _ | .reverseItems sequence
  | .sortItems sequence _ => sequence
  | .setKey table _ _ | .eraseKey table _ | .install _ table => table
  | .setPath root path _ => heap.storeSite root (heap.pathParts path)
  | _ => .null

/-- A request that writes no bucket but through its table, and stores no key whose text can
change. -/
structure Careful (heap : Heap σ) (request : Request σ) : Prop where
  site : ¬heap.IsBucket (heap.site request)
  key : ∀ key ∈ request.key?, (heap.kind key).hasFixedText = true

variable {heap heap' : Heap σ} {held : Multiset Value}

theorem settle_eq_ok {α : Type} {run : Except Exhausted (α × Heap σ)}
    (done : settle run = .ok heap') : ∃ answer, run = .ok (answer, heap') := by
  obtain ⟨⟨answer, after⟩, ran, last⟩ := bind_eq_ok.mp done
  obtain rfl := Except.ok.inj last
  exact ⟨answer, ran⟩

/-- A hash is written with its buckets; a value that is no hash is not written at all. -/
theorem Step.setKey_of_kind (sound : heap.Sound held) {table key value answer : Value}
    (issuedKey : heap.Issued key) (issuedValue : heap.Issued value)
    (done : heap.setKey table key value = .ok (answer, heap')) :
    Step (heap.storeCells table) ((heap.kind key).hasFixedText = true) heap heap' held := by
  by_cases isHash : heap.kind table = .hash
  · rw [← tableCells_eq_storeCells isHash]
    exact .setKey sound issuedKey issuedValue done
  · have absent : heap.table? table = none := by
      refine Option.eq_none_iff_forall_ne_some.mpr fun content found => ?_
      exact isHash (kind_of_table? found)
    rw [Heap.setKey, absent] at done
    obtain ⟨-, rfl⟩ := Prod.mk.inj (Except.ok.inj done)
    exact .refl _ _ sound

theorem Step.eraseKey_of_kind (sound : heap.Sound held) (table key : Value) :
    Step (heap.storeCells table) True heap (heap.eraseKey table key).2 held := by
  by_cases isHash : heap.kind table = .hash
  · rw [← tableCells_eq_storeCells isHash]
    exact .eraseKey sound table key
  · have absent : heap.locate? table (heap.text key) = none := by
      refine Option.eq_none_iff_forall_ne_some.mpr fun ⟨bucket, index⟩ located => ?_
      obtain ⟨content, -, found, -⟩ := locate?_eq_some located
      exact isHash (kind_of_table? found)
    rw [Heap.eraseKey, absent]
    exact .refl _ _ sound

/-- An array that is written is no bucket. -/
theorem Step.ofSequence {sequence : Value} {guard : Prop}
    (step : Step {sequence} (¬heap.IsBucket sequence) heap heap' held)
    (guarded : guard → ¬heap.IsBucket sequence) :
    Step (heap.storeCells sequence) guard heap heap' held :=
  step.mono (fun _ _ written => .inl written) guarded

/-- A request is a step: it keeps the ledger, writes only its container, and keeps all tables in
order if it is careful. -/
theorem Step.perform (sound : heap.Sound held) {request : Request σ}
    (issued : ∀ value ∈ request.handles, heap.Issued value)
    (done : heap.perform request = .ok heap') :
    Step (heap.storeCells (heap.site request)) (heap.Careful request) heap heap' held := by
  cases request with
  | string | int | real | nullCell | file | native =>
      obtain rfl := Except.ok.inj done
      exact (Step.createSingle sound rfl (by simp)).weaken
  | hash =>
      obtain rfl := Except.ok.inj done
      exact (Step.hash sound).weaken
  | closure name auxiliary =>
      obtain rfl := Except.ok.inj done
      exact (Step.closure sound (issued _ (by simp [Request.handles]))).weaken
  | array capacity =>
      obtain ⟨answer, made⟩ := settle_eq_ok done
      exact (Step.array sound made).weaken
  | arrayOf items =>
      obtain rfl := Except.ok.inj done
      exact (Step.arrayOf sound issued).weaken
  | program items =>
      obtain rfl := Except.ok.inj done
      exact (Step.program sound issued).weaken
  | scratchString | scratchInt | scratchReal =>
      obtain rfl := Except.ok.inj done
      exact (Step.createScratch sound rfl (.inl rfl)).weaken
  | scratchArray capacity =>
      obtain ⟨answer, made⟩ := settle_eq_ok done
      obtain ⟨-, -, last⟩ := bind_eq_ok.mp made
      obtain ⟨-, rfl⟩ := Prod.mk.inj (Except.ok.inj last)
      exact (Step.createScratch sound rfl (.inr rfl)).weaken
  | own value =>
      obtain rfl := Except.ok.inj done
      exact (Step.own sound (issued _ (by simp [Request.handles]))).weaken
  | clone value =>
      obtain rfl := Except.ok.inj done
      exact (Step.clone sound (issued _ (by simp [Request.handles]))).weaken
  | expandItems sequence offset count =>
      obtain ⟨answer, ran⟩ := settle_eq_ok done
      exact (Step.expandItems sound ran).ofSequence Careful.site
  | collapseItems sequence offset count =>
      obtain rfl := Except.ok.inj done
      exact (Step.collapseItems sound sequence offset count).ofSequence Careful.site
  | setItem sequence element offset =>
      obtain ⟨answer, ran⟩ := settle_eq_ok done
      exact (Step.setItem sound (issued _ (by simp [Request.handles])) ran).ofSequence Careful.site
  | insertItem sequence element offset =>
      obtain ⟨answer, ran⟩ := settle_eq_ok done
      exact (Step.insertItem sound (issued _ (by simp [Request.handles])) ran).ofSequence
        Careful.site
  | deleteItem sequence offset =>
      obtain rfl := Except.ok.inj done
      exact (Step.deleteItem sound sequence offset).ofSequence Careful.site
  | pushItem sequence element =>
      obtain ⟨answer, ran⟩ := settle_eq_ok done
      exact (Step.pushItem sound (issued _ (by simp [Request.handles])) ran).ofSequence
        Careful.site
  | popItem sequence =>
      obtain rfl := Except.ok.inj done
      exact (Step.deleteItem sound sequence (-1)).ofSequence Careful.site
  | queueItem sequence element capacity =>
      obtain ⟨answer, ran⟩ := settle_eq_ok done
      exact (Step.queueItem sound (issued _ (by simp [Request.handles])) ran).ofSequence
        Careful.site
  | sliceItems sequence offset count =>
      obtain rfl := Except.ok.inj done
      exact (Step.sliceItems sound sequence offset count).weaken
  | spliceItems sequence offset count inserted =>
      obtain ⟨answer, ran⟩ := settle_eq_ok done
      exact (Step.spliceItems sound (fun value member => issued value (.tail _ member))
        ran).ofSequence Careful.site
  | reverseItems sequence =>
      obtain rfl := Except.ok.inj done
      exact (Step.reverseItems sound sequence).ofSequence Careful.site
  | sortItems sequence step =>
      obtain ⟨answer, ran⟩ := settle_eq_ok done
      exact (Step.sortItems sound ran).ofSequence Careful.site
  | setKey table key value =>
      obtain ⟨answer, ran⟩ := settle_eq_ok done
      exact (Step.setKey_of_kind sound (issued _ (by simp [Request.handles]))
        (issued _ (by simp [Request.handles])) ran).mono (fun _ _ => id)
        fun careful => careful.key key rfl
  | eraseKey table key =>
      obtain rfl := Except.ok.inj done
      exact (Step.eraseKey_of_kind sound table key).mono (fun _ _ => id) fun _ => trivial
  | keys table =>
      obtain rfl := Except.ok.inj done
      exact (Step.keys sound table).weaken
  | values table =>
      obtain rfl := Except.ok.inj done
      exact (Step.values sound table).weaken
  | setPath root path value =>
      obtain ⟨answer, ran⟩ := settle_eq_ok done
      exact (Step.setPath sound (issued _ (by simp [Request.handles])) ran).mono (fun _ _ => id)
        Careful.site
  | split separator text =>
      obtain ⟨answer, ran⟩ := settle_eq_ok done
      exact (Step.split sound ran).weaken
  | join separator sequence =>
      obtain rfl := Except.ok.inj done
      exact (Step.join sound separator sequence).weaken
  | splice text inserted offset length =>
      obtain rfl := Except.ok.inj done
      exact (Step.splice sound text inserted offset length).weaken
  | install registry table =>
      obtain ⟨count, ran⟩ := settle_eq_ok done
      exact (Registry.installInto_step sound ran).mono (fun _ _ => id) fun _ => trivial
  | setSweepBatch | setLowWater =>
      obtain rfl := Except.ok.inj done
      refine Step.weaken (Step.of_sameCells sound ?_)
      exact ⟨rfl, rfl, rfl, rfl, rfl⟩

end Heap

end CountedHeap
