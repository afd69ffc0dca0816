import CountedHeap.Proofs.ListView
import CountedHeap.Proofs.Scopes

/-!
Contract: what an operation that makes cells and writes a few leaves alone.

An operation whose lists grow may ask for more room than there is.  Such an operation ends as
described, or it asks for room beyond the limit; there is nothing else that it can do.  What it may
ask for is bounded, so it does end where there is room for that.

Owns:
- `EndsWithin`, operations that end or have no room for something up to a bound;
- `Alters`, cells were made and only the given ones written;
- `OwnsAs`, what is stored of a value in the middle of such an operation.

Does not own: what is written.
-/

namespace CountedHeap

/-- An operation ends as described, or it asks for more room than there is.  Then it asks for no
more than a bound. -/
inductive EndsWithin {α : Type} (bound : Nat) : Except Exhausted α → (α → Prop) → Prop
  | ended {answer : α} {good : α → Prop} (holds : good answer) :
      EndsWithin bound (.ok answer) good
  | noRoom {requested : Nat} {good : α → Prop} (beyond : elementLimit < requested)
      (within : requested ≤ bound) : EndsWithin bound (.error (.storage requested)) good

namespace EndsWithin

variable {α β : Type} {bound : Nat} {result : Except Exhausted α} {good good' : α → Prop}

theorem bind {next : α → Except Exhausted β} {goal : β → Prop}
    (ends : EndsWithin bound result good)
    (after : ∀ answer, good answer → EndsWithin bound (next answer) goal) :
    EndsWithin bound (result >>= next) goal := by
  cases ends with
  | ended holds => exact after _ holds
  | noRoom beyond within => exact .noRoom beyond within

theorem mono (ends : EndsWithin bound result good)
    (weaker : ∀ answer, good answer → good' answer) : EndsWithin bound result good' := by
  cases ends with
  | ended holds => exact .ended (weaker _ holds)
  | noRoom beyond within => exact .noRoom beyond within

theorem attach (ends : EndsWithin bound result good) :
    EndsWithin bound result fun answer => result = .ok answer ∧ good answer := by
  cases ends with
  | ended holds => exact .ended ⟨rfl, holds⟩
  | noRoom beyond within => exact .noRoom beyond within

theorem widen {wider : Nat} (ends : EndsWithin bound result good) (within : bound ≤ wider) :
    EndsWithin wider result good := by
  cases ends with
  | ended holds => exact .ended holds
  | noRoom beyond asked => exact .noRoom beyond (Nat.le_trans asked within)

/-- What else is known of the end. -/
theorem and_ends {other : Nat} (within : EndsWithin bound result good)
    (ends : EndsWithin other result good') :
    EndsWithin bound result fun answer => good answer ∧ good' answer := by
  cases within with
  | noRoom beyond within => exact .noRoom beyond within
  | ended holds =>
      cases ends with
      | ended holds' => exact .ended ⟨holds, holds'⟩

/-- Where there is room for all that may be asked for, an operation ends. -/
theorem exists_ok (ends : EndsWithin bound result good) (room : bound ≤ elementLimit) :
    ∃ answer, result = .ok answer ∧ good answer := by
  cases ends with
  | ended holds => exact ⟨_, rfl, holds⟩
  | noRoom beyond within => omega

end EndsWithin

namespace Heap

variable {σ : Signature} {heap heap' heap'' : Heap σ} {cells cells' : Set Value}
  {sequence table value stored : Value} {items : List Value} {content : HashTable}

/-- A value that lives or is gone as it was keeps its payload when a scope is closed. -/
theorem payload_unwind_of_isLive_eq (mark : Nat)
    (same : (heap.unwind mark).isLive value = heap.isLive value) :
    (heap.unwind mark).payload value = heap.payload value := by
  cases live : heap.isLive value with
  | true =>
      rw [live, unwind_eq, isLive_releaseAll] at same
      rw [unwind_eq, payload_releaseAll,
        payload_eq_of_cell?_eq (cell?_dropScratch_of_isLive mark same)]
  | false =>
      rw [payload_of_not_isLive live, payload_of_not_isLive (same.trans live)]

/-- Cells were made, and of those that were there only the given ones have changed. -/
structure Alters (cells : Set Value) (heap heap' : Heap σ) : Prop where
  consistent : heap'.Consistent
  hashBuckets : heap'.config.hashBuckets = heap.config.hashBuckets
  issued : ∀ {value}, heap.Issued value → heap'.Issued value
  live : ∀ {value}, heap.Issued value → heap'.isLive value = heap.isLive value
  payload : ∀ {value}, heap.Issued value → value ∉ cells →
    heap'.payload value = heap.payload value

namespace Alters

theorem refl (cells : Set Value) (consistent : heap.Consistent) : Alters cells heap heap where
  consistent := consistent
  hashBuckets := rfl
  issued := id
  live := fun _ => rfl
  payload := fun _ _ => rfl

/-- What the second change writes is written by the whole, unless it is new. -/
theorem trans (first : Alters cells heap heap') (second : Alters cells' heap' heap'')
    (covered : ∀ {value}, heap.Issued value → value ∈ cells' → value ∈ cells) :
    Alters cells heap heap'' where
  consistent := second.consistent
  hashBuckets := second.hashBuckets.trans first.hashBuckets
  issued := fun issued => second.issued (first.issued issued)
  live := fun issued => (second.live (first.issued issued)).trans (first.live issued)
  payload := fun issued outside =>
    (second.payload (first.issued issued) (mt (covered issued) outside)).trans
      (first.payload issued outside)

theorem mono (alters : Alters cells heap heap')
    (covered : ∀ {value}, heap.Issued value → value ∈ cells → value ∈ cells') :
    Alters cells' heap heap' where
  consistent := alters.consistent
  hashBuckets := alters.hashBuckets
  issued := alters.issued
  live := alters.live
  payload := fun issued outside => alters.payload issued (mt (covered issued) outside)

/-- Cells were made first. -/
theorem afterMaking (alters : Alters cells heap' heap'') (making : Alters ∅ heap heap') :
    Alters cells heap heap'' :=
  (making.mono fun _ => False.elim).trans alters fun _ => id

theorem of_grows (grows : Grows heap heap') (consistent : heap'.Consistent) :
    Alters cells heap heap' where
  consistent := consistent
  hashBuckets := grows.hashBuckets
  issued := grows.issued
  live := grows.live
  payload := fun issued _ => grows.payload issued

theorem of_rewrites (rewrites : Rewrites heap heap' sequence items) :
    Alters {sequence} heap heap' where
  consistent := rewrites.consistent
  hashBuckets := rewrites.hashBuckets
  issued := rewrites.issued
  live := rewrites.live
  payload := fun issued outside => rewrites.others issued outside

theorem setTable (consistent : heap.Consistent) (table : Value) (content : HashTable) :
    Alters {table} heap (heap.setTable table content) where
  consistent := consistent.modifyCell _ _
  hashBuckets := by rw [Heap.setTable, config_modifyCell]
  issued := (issued_setPayload _ _ _).mpr
  live := fun _ => isLive_setPayload _ _ _
  payload := fun _ outside => payload_setTable_of_ne outside

theorem own (consistent : heap.Consistent) (value : Value) :
    Alters cells heap (heap.own value).2 :=
  .of_grows (.own consistent value) (consistent.own value)

theorem create (consistent : heap.Consistent) (payload : Payload σ) :
    Alters cells heap (heap.create payload).2 :=
  .of_grows (.create consistent payload) (consistent.create payload)

theorem scratchString (consistent : heap.Consistent) (text : String) :
    Alters cells heap (heap.scratchString text).2 where
  consistent := consistent.createScratch _
  hashBuckets := rfl
  issued := Issued.createScratch _
  live := fun issued => isLive_eq_of_cell?_eq (cell?_createScratch_of_ne fun same =>
    not_issued_createScratch _ (same ▸ issued))
  payload := fun issued _ => payload_createScratch_of_ne fun same =>
    not_issued_createScratch _ (same ▸ issued)

/-- A scope is closed: the scratch cells that were there before are there again. -/
theorem unwind (alters : Alters cells heap heap') {mark : Nat}
    (serials : (heap'.unwind mark).serials = heap.serials) :
    Alters cells heap (heap'.unwind mark) := by
  have leads : Leads True mark heap' (heap'.unwind mark) := .unwind (Nat.le_refl mark)
  obtain ⟨made, trace⟩ := leads.trace
  have live : ∀ {value}, heap.Issued value →
      (heap'.unwind mark).isLive value = heap.isLive value := by
    intro value issued
    cases scratch : value.isScratch with
    | true => exact isLive_of_serials_eq serials scratch
    | false => rw [isLive_unwind mark scratch, alters.live issued]
  refine ⟨trace.consistent alters.consistent, ?_,
    fun issued => trace.issued (alters.issued issued), live, fun {value} issued outside => ?_⟩
  · rw [unwind_eq, config_releaseAll]
    exact alters.hashBuckets
  rw [← alters.payload issued outside]
  exact payload_unwind_of_isLive_eq mark ((live issued).trans (alters.live issued).symm)

theorem items? (alters : Alters cells heap heap') (issued : heap.Issued sequence)
    (outside : sequence ∉ cells) : heap'.items? sequence = heap.items? sequence := by
  rw [Heap.items?, alters.payload issued outside, Heap.items?]

theorem table? (alters : Alters cells heap heap') (issued : heap.Issued table)
    (outside : table ∉ cells) : heap'.table? table = heap.table? table := by
  rw [Heap.table?, alters.payload issued outside, Heap.table?]

end Alters

/-- What is stored of a value: what owning it answers while only the given cells have changed. -/
def OwnsAs (heap : Heap σ) (cells : Set Value) (value stored : Value) : Prop :=
  ∃ between, Alters cells heap between ∧ stored = (between.own value).1

theorem OwnsAs.storedAs (owns : heap.OwnsAs cells value stored) : StoredAs value stored := by
  obtain ⟨between, -, rfl⟩ := owns
  exact storedAs_own between value


/-- What is stored after cells were made and before the given ones are written. -/
theorem OwnsAs.before (owns : heap'.OwnsAs cells' value stored) (alters : Alters cells heap heap')
    (covered : ∀ {value}, heap.Issued value → value ∈ cells' → value ∈ cells) :
    heap.OwnsAs cells value stored := by
  obtain ⟨between, changing, owned⟩ := owns
  exact ⟨between, alters.trans changing covered, owned⟩

end Heap

end CountedHeap
