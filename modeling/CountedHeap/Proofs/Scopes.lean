import CountedHeap.Proofs.Runs
import CountedHeap.Proofs.Scripts
import CountedHeap.Proofs.Texts

/-!
Contract: scratch values do not outlive their scope, and nothing depends on them that does.

Owns:
- closing a scope: the pool is what it was, what the dropped cells held is released, and
  long-lived values keep their payloads and their texts;
- in every run, no cell holds a scratch value.
-/

namespace CountedHeap.Heap

variable {σ : Signature} {loose : Prop} {heap heap' : Heap σ}

/-! ## Closing a scope -/

theorem serials_releaseAll (heap : Heap σ) (values : List Value) :
    (heap.releaseAll values).serials = heap.serials := by
  induction values generalizing heap with
  | nil => rfl
  | cons first rest inductionHypothesis =>
      exact (inductionHypothesis (heap.release first)).trans (serials_modifyCell first _)

/-- What the scratch cells from a mark on hold, with repetition. -/
def heldAbove (heap : Heap σ) (mark : Nat) : List Value :=
  (heap.scratch.toList.drop mark).flatMap fun slot => slot.cell.payload.children

theorem unwind_eq (heap : Heap σ) (mark : Nat) :
    heap.unwind mark = (heap.dropScratch mark).releaseAll (heap.heldAbove mark) := rfl

theorem serials_unwind (heap : Heap σ) (mark : Nat) :
    (heap.unwind mark).serials = heap.serials.take mark := by
  rw [unwind_eq, serials_releaseAll, serials_dropScratch]

theorem refs_unwind {mark : Nat} {value : Value}
    (live : (heap.unwind mark).isLive value = true) :
    (heap.unwind mark).refs value = heap.refs value - (heap.heldAbove mark).count value := by
  rw [unwind_eq, isLive_releaseAll] at live
  rw [unwind_eq, refs_releaseAll, refs_eq_of_cell?_eq (cell?_dropScratch_of_isLive mark live)]

theorem payload_unwind (mark : Nat) {value : Value} (durable : value.isScratch = false) :
    (heap.unwind mark).payload value = heap.payload value := by
  rw [unwind_eq, payload_releaseAll,
    payload_eq_of_cell?_eq (cell?_dropScratch_of_not_isScratch mark durable)]

theorem isLive_unwind (mark : Nat) {value : Value} (durable : value.isScratch = false) :
    (heap.unwind mark).isLive value = heap.isLive value := by
  rw [unwind_eq, isLive_releaseAll,
    isLive_eq_of_cell?_eq (cell?_dropScratch_of_not_isScratch mark durable)]

/-- Where no cell holds a scratch value, the text of a long-lived value says nothing about the
pool. -/
theorem text_unwind (proper : heap.Proper False) (mark : Nat) {value : Value}
    (durable : value.isScratch = false) : (heap.unwind mark).text value = heap.text value := by
  have kept : value ∈ {value : Value | value.isScratch = false} := durable
  apply textWithin_congr (fun member => payload_unwind mark member) _ kept
  intro holder child _ member
  exact (proper.storable member).durable

/-- Whether a scratch handle is live is said by the serial numbers. -/
theorem isLive_scratch_iff {id : ScratchId} :
    heap.isLive (.scratch id) = true ↔ heap.serials[id.index]? = some id.serial := by
  rw [isLive, cell?, serials, List.getElem?_map, Array.getElem?_toList]
  cases heap.scratch[id.index]? with
  | none => simp
  | some slot => by_cases current : slot.serial = id.serial <;> simp [current]

theorem isLive_of_serials_eq (same : heap'.serials = heap.serials) {value : Value}
    (scratch : value.isScratch = true) : heap'.isLive value = heap.isLive value := by
  cases value with
  | null => contradiction
  | cell id => contradiction
  | scratch id => rw [Bool.eq_iff_iff, isLive_scratch_iff, isLive_scratch_iff, same]

/-- Whatever is stored and wherever, no cell ever holds a scratch value.  So a scope can be
closed after any body: the pool is what it was when the scope was opened, the scratch handles
issued inside name nothing, every child of a dropped cell is released once for each time it
occurs in one, and each long-lived value keeps its payload, its life and its text. -/
theorem Runs.scratch_confined {config : Config} (runs : Runs False (.new config) heap) :
    (∀ holder, ∀ value ∈ heap.children holder, value.isScratch = false) ∧
    ∀ heap', Runs False heap heap' →
      let closed := heap'.unwind heap.scratch.size
      closed.serials = heap.serials ∧
      (∀ value, value.isScratch = true → closed.isLive value = heap.isLive value) ∧
      (∀ value, value.isScratch = true → ¬heap.Issued value → closed.isLive value = false) ∧
      (∀ value, closed.isLive value = true → closed.refs value =
        heap'.refs value - (heap'.heldAbove heap.scratch.size).count value) ∧
      ∀ value, value.isScratch = false →
        closed.payload value = heap'.payload value ∧
        closed.isLive value = heap'.isLive value ∧
        closed.text value = heap'.text value := by
  have proper := runs.proper_new
  refine ⟨fun holder value member => (proper.storable member).durable, fun heap' body => ?_⟩
  intro closed
  obtain ⟨made, trace⟩ := (body.leads proper (Nat.le_refl _)).trace
  have serials : closed.serials = heap.serials := by
    have whole : heap.serials.take heap.scratch.size = heap.serials := by
      rw [← length_serials, List.take_length]
    rw [serials_unwind, (trace.serials (Nat.le_refl _)).2, whole]
  refine ⟨serials, fun value => isLive_of_serials_eq serials, fun value scratch fresh => ?_,
    fun value => refs_unwind, fun value durable => ⟨payload_unwind _ durable,
      isLive_unwind _ durable, text_unwind (body.proper proper) _ durable⟩⟩
  rw [isLive_of_serials_eq serials scratch]
  apply eq_false_of_ne_true
  intro live
  exact fresh (proper.toConsistent.issued live)

/-- A hash, and a scratch string in the pool. -/
def beforeStoring : List (Request .bare) :=
  [.hash, .string "x", .scratchString "y"]

/-- A scratch array, with both strings in it, is stored at a path that is a scratch string. -/
def storing : List (Request .bare) :=
  [.scratchArray 2, .pushItem (.scratch ⟨1, 1⟩) (.cell ⟨1, 0⟩),
    .pushItem (.scratch ⟨1, 1⟩) (.scratch ⟨0, 0⟩), .scratchString "k",
    .setPath (.cell ⟨0, 0⟩) (.scratch ⟨2, 2⟩) (.scratch ⟨1, 1⟩)]

theorem isSome_beforeStoring :
    ((new { hashBuckets := 2 }).performAll? beforeStoring).isSome = true := by
  decide +kernel

/-- The heap in which a scope is opened. -/
def opened : Heap .bare :=
  ((new { hashBuckets := 2 }).performAll? beforeStoring).get isSome_beforeStoring

theorem isSome_storing : (opened.performAll? storing).isSome = true := by
  decide +kernel

/-- The heap in which the scope is closed. -/
def filled : Heap .bare :=
  (opened.performAll? storing).get isSome_storing

theorem stored_scratch_array :
    Runs False (.new { hashBuckets := 2 }) opened ∧ Runs False opened filled ∧
      filled.isLive (.scratch ⟨1, 1⟩) = true ∧ filled.refs (.cell ⟨1, 0⟩) = 2 ∧
      (filled.unwind opened.scratch.size).isLive (.scratch ⟨1, 1⟩) = false ∧
      (filled.unwind opened.scratch.size).refs (.cell ⟨1, 0⟩) = 1 ∧
      (filled.unwind opened.scratch.size).text (.cell ⟨0, 0⟩) = filled.text (.cell ⟨0, 0⟩) := by
  have runs : Runs False (.new { hashBuckets := 2 }) opened :=
    Runs.refl.performAll? (Option.some_get isSome_beforeStoring).symm
  have body : Runs False opened filled :=
    Runs.refl.performAll? (Option.some_get isSome_storing).symm
  obtain ⟨-, closing⟩ := runs.scratch_confined
  obtain ⟨-, -, stale, counts, durable⟩ := closing filled body
  have live : (filled.unwind opened.scratch.size).isLive (.cell ⟨1, 0⟩) = true := by
    decide +kernel
  refine ⟨runs, body, by decide +kernel, by decide +kernel, stale _ rfl (by decide +kernel), ?_,
    (durable _ rfl).2.2⟩
  rw [counts _ live]
  decide +kernel

end CountedHeap.Heap
