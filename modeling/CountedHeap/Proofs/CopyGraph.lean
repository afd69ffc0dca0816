import CountedHeap.Proofs.CopyDepth
import CountedHeap.Proofs.Runs
import CountedHeap.Proofs.Scripts

/-!
Contract: the copy of a value is the same graph on new cells.

A container may hold a handle that is not issued yet.  If the copying issues it, the copy of that
child is not absent but a copy of what was made in the meantime.  Below a value of which no handle
is foretold in this way, the copy has the shape of the original.

Owns:
- `Balanced`, by which the counts of the copies are exact whether or not other counts are;
- `SameGraph`, and that copying makes the same graph;
- a heap in which a handle is foretold.
-/

namespace CountedHeap.Heap

variable {σ : Signature} {source heap heap' : Heap σ} {held : Multiset Value} {copies : Copies}

/-! ## Counts of copies -/

/-- Of the references in the heap, those that `source` does not have are counted.  Copies that are
made and not yet stored are in the ledger. -/
structure Balanced (source heap : Heap σ) (held : Multiset Value) : Prop
    extends Consistent heap where
  issued_held : ∀ {value}, value ∈ held → heap.Issued value
  foreign : ∀ {value}, ¬heap.Issued value →
    heap.references.count value = source.references.count value
  refs_eq : ∀ {value}, ¬source.Issued value → heap.isLive value = true →
    heap.refs value + source.references.count value =
      held.count value + heap.references.count value

theorem Balanced.start (consistent : source.Consistent) : Balanced source source 0 where
  toConsistent := consistent
  issued_held := fun member => absurd member (Multiset.notMem_zero _)
  foreign := fun _ => rfl
  refs_eq := fun fresh live => absurd (consistent.issued live) fresh

theorem Balanced.retain (balanced : Balanced source heap held) {value : Value}
    (issued : heap.Issued value) : Balanced source (heap.retain value) (value ::ₘ held) where
  toConsistent := balanced.toConsistent.modifyCell value _
  issued_held := fun {other} member => by
    rw [issued_retain]
    rcases Multiset.mem_cons.mp member with rfl | before
    · exact issued
    · exact balanced.issued_held before
  foreign := fun {other} fresh => by
    rw [issued_retain] at fresh
    rw [count_references_retain, balanced.foreign fresh]
  refs_eq := fun {other} fresh live => by
    rw [isLive_retain] at live
    have before := balanced.refs_eq fresh live
    rw [refs_retain, count_references_retain, Multiset.count_cons]
    by_cases same : other = value
    · rw [if_pos ⟨same, same ▸ live⟩, if_pos same]
      omega
    · rw [if_neg fun both => same both.1, if_neg same]
      omega

theorem Balanced.create (balanced : Balanced source heap held) {payload : Payload σ}
    (childless : payload.children = []) : Balanced source (heap.create payload).2 held := by
  have consistent := balanced.toConsistent
  have references : ∀ value,
      (heap.create payload).2.references.count value = heap.references.count value := by
    intro value
    rw [count_references_create consistent, childless]
    rfl
  refine ⟨consistent.create payload, fun member => (balanced.issued_held member).create payload,
    fun {value} fresh => ?_, fun {value} fresh live => ?_⟩
  · rw [references]
    exact balanced.foreign fun issued => fresh (issued.create payload)
  · rw [references]
    by_cases isNew : value = (heap.create payload).1
    · subst isNew
      have unissued := not_issued_create consistent payload
      have unheld : held.count (heap.create payload).1 = 0 :=
        Multiset.count_eq_zero.mpr fun member => unissued (balanced.issued_held member)
      have unheldCell : (heap.create payload).2.refs (heap.create payload).1 = 0 := by
        rw [refs, cell?_create_self consistent]
      rw [unheld, unheldCell, balanced.foreign unissued]
    · have same : (heap.create payload).2.cell? value = heap.cell? value := by
        rw [cell?_create consistent, if_neg isNew]
      rw [isLive_eq_of_cell?_eq same] at live
      rw [refs_eq_of_cell?_eq same]
      exact balanced.refs_eq fresh live

/-- The references that held the copies of the children are those in the container. -/
theorem Balanced.fill {value copy : Value} {pending children : List Value}
    (balanced : Balanced source heap (held + ↑children))
    (state : CopyState source heap copies (value :: pending)) (entered : (value, copy) ∈ copies) :
    Balanced source (heap.setChildren copy children) held := by
  obtain ⟨multi, childless⟩ := state.pending_copy entered List.mem_cons_self
  have references : ∀ other, (heap.setChildren copy children).references.count other =
      heap.references.count other + children.count other := by
    intro other
    have counted := count_references_setPayload (isLive_of_isMulti multi)
      ((heap.payload copy).withChildren children) other
    rwa [childless, List.count_nil, Nat.add_zero, ← setChildren_eq_setPayload,
      Payload.children_withChildren_of_isMulti multi] at counted
  refine ⟨balanced.toConsistent.modifyCell copy _, fun {other} member => ?_,
    fun {other} fresh => ?_, fun {other} fresh live => ?_⟩
  · rw [setChildren_eq_setPayload, issued_setPayload]
    exact balanced.issued_held (Multiset.mem_add.mpr (.inl member))
  · rw [setChildren_eq_setPayload, issued_setPayload] at fresh
    have outside : children.count other = 0 := by
      apply List.count_eq_zero.mpr
      intro member
      exact fresh (balanced.issued_held (Multiset.mem_add.mpr (.inr member)))
    rw [references, outside, Nat.add_zero, balanced.foreign fresh]
  · rw [references, setChildren_eq_setPayload, refs_setPayload]
    rw [setChildren_eq_setPayload, isLive_setPayload] at live
    have before := balanced.refs_eq fresh live
    rw [Multiset.count_add, Multiset.coe_count] at before
    omega

theorem Balanced.keeping (source : Heap σ) : Keeping source (Balanced source) where
  consistent := Balanced.toConsistent
  retain := fun balanced issued => balanced.retain issued
  create := fun balanced childless => balanced.create childless
  fill := fun state entered _ balanced => balanced.fill state entered

/-! ## Graphs -/

/-- The cells that a heap has and an earlier one had not. -/
def newCells (heap heap' : Heap σ) : List Value :=
  heap'.handles.filter fun value => !heap.isLive value

theorem mem_newCells_iff {value : Value} :
    value ∈ heap.newCells heap' ↔ heap'.isLive value = true ∧ heap.isLive value = false := by
  rw [newCells, List.mem_filter, mem_handles_iff, Bool.not_eq_true']

/-- The containers below a value. -/
def HasContainer (heap : Heap σ) (value container : Value) : Prop :=
  heap.Below value container ∧ (heap.kind container).isMulti = true

/-- What stands for a value in a copy, if `image` stands for its containers. -/
structure ImageOf (heap heap' : Heap σ) (image : Value → Value) (value copy : Value) : Prop where
  container : (heap.kind value).isMulti = true → copy = image value
  same : heap.isLive value = true → (heap.kind value).isMulti = false →
    value.isScratch = false → copy = value
  plain : heap.isLive value = true → (heap.kind value).isMulti = false →
    value.isScratch = true → (heap.payload value).isPlainData = true ∧ ¬heap.Issued copy ∧
      copy.isScratch = false ∧ heap'.payload copy = heap.payload value
  absent : heap.isLive value = false → copy = .null

/-- In a later heap there is the graph of a value once more, on new cells. -/
structure SameGraph (heap heap' : Heap σ) (value answer : Value) (image : Value → Value) :
    Prop where
  answer : ImageOf heap heap' image value answer
  injective : ∀ {container other}, heap.HasContainer value container →
    heap.HasContainer value other → image container = image other → container = other
  new : ∀ {container}, heap.HasContainer value container →
    ¬heap.Issued (image container) ∧ heap'.isLive (image container) = true ∧
      (image container).isScratch = false
  onto : ∀ {made}, heap.isLive made = false → (heap'.kind made).isMulti = true →
    ∃ container, heap.HasContainer value container ∧ image container = made
  kind : ∀ {container}, heap.HasContainer value container →
    heap'.kind (image container) = heap.kind container
  children : ∀ {container}, heap.HasContainer value container →
    List.Forall₂ (ImageOf heap heap' image) (heap.children container)
      (heap'.children (image container))
  pairs : ∀ {container content}, heap.HasContainer value container →
    heap.table? container = some content →
      ∃ content', heap'.table? (image container) = some content' ∧ content'.pairs = content.pairs
  refs : ∀ {container}, heap.HasContainer value container →
    heap'.refs (image container) =
      ((heap.newCells heap').flatMap heap'.children).count (image container)

/-- What was read off a finished copying: the containers entered are those below the value. -/
structure Finished (source heap : Heap σ) (copies : Copies) (value answer : Value) : Prop where
  state : CopyState source heap copies []
  balanced : Balanced source heap 0
  below : ∀ {key copy}, (key, copy) ∈ copies → source.Below value key
  copied : CopyOf source heap copies value answer

theorem finished_clone (proper : heap.Proper True) {value : Value}
    (settled : heap.Settled (heap.clone value).2 value) :
    ∃ copies, Finished heap (heap.clone value).2 copies value (heap.clone value).1 := by
  obtain ⟨depth, enough, copying⟩ := heap.exists_clone_eq value
  rw [copying] at settled ⊢
  obtain ⟨run, copied⟩ := clones_cloneWithin (Balanced.keeping heap) proper.toConsistent
    proper.pool (depth + 1) (.start proper.toConsistent) (.start proper.toConsistent) settled
    enough
  refine ⟨_, run.state, run.kept, fun member => ?_, copied⟩
  rcases run.below member with before | ⟨root, inside, below⟩
  · contradiction
  · rwa [List.mem_singleton.mp inside] at below

/-- The copy of each container. -/
def imageIn (copies : Copies) (value : Value) : Value :=
  (copies.lookup value).getD .null

namespace Finished

variable {value answer : Value}

theorem imageIn_eq (finished : Finished source heap copies value answer) {key copy : Value}
    (entered : (key, copy) ∈ copies) : imageIn copies key = copy := by
  unfold imageIn
  cases found : copies.lookup key with
  | none => simpa using List.lookup_eq_none_iff.mp found _ entered
  | some other =>
      obtain ⟨front, back, rfl, -⟩ := List.lookup_eq_some_iff.mp found
      exact finished.state.functional (by simp) entered

/-- A container that has a copy was entered. -/
theorem entered_of_isMulti {key copy : Value} (copied : CopyOf source heap copies key copy)
    (multi : (source.kind key).isMulti = true) : (key, copy) ∈ copies := by
  cases copied with
  | container entered => exact entered
  | same durable live single =>
      rw [single] at multi
      contradiction
  | plain scratch isPlain =>
      rw [kind, isMulti_of_isPlainData isPlain] at multi
      contradiction
  | absent stale =>
      rw [isLive_of_isMulti multi] at stale
      contradiction

/-- Every value below has a copy.  The induction goes down from the value: the children of what was
entered were copied. -/
theorem exists_copy (finished : Finished source heap copies value answer) {other : Value}
    (below : source.Below value other) : ∃ copy, CopyOf source heap copies other copy := by
  induction below with
  | refl => exact ⟨answer, finished.copied⟩
  | tail _ member inductionHypothesis =>
      obtain ⟨copy, copied⟩ := inductionHypothesis
      have entered := entered_of_isMulti copied (isMulti_of_mem_children member)
      obtain ⟨children, -, childrenCopied⟩ :=
        finished.state.filled entered List.not_mem_nil
      obtain ⟨childCopy, -, childCopied⟩ := exists_mem_of_forall₂ childrenCopied.flip member
      exact ⟨childCopy, childCopied⟩

theorem entered (finished : Finished source heap copies value answer) {container : Value}
    (has : source.HasContainer value container) :
    (container, imageIn copies container) ∈ copies := by
  obtain ⟨copy, copied⟩ := finished.exists_copy has.1
  have entered := entered_of_isMulti copied has.2
  rwa [finished.imageIn_eq entered]

theorem imageOf (finished : Finished source heap copies value answer) {other copy : Value}
    (copied : CopyOf source heap copies other copy) :
    ImageOf source heap (imageIn copies) other copy where
  container := fun multi => (finished.imageIn_eq (entered_of_isMulti copied multi)).symm
  same := fun live single durable => by
    cases copied with
    | container entered => simp [finished.state.multi entered] at single
    | same => rfl
    | plain scratch => simp [scratch] at durable
    | absent stale => simp [stale] at live
  plain := fun live single scratch => by
    cases copied with
    | container entered => simp [finished.state.multi entered] at single
    | same durable => simp [durable] at scratch
    | plain scratch isPlain fresh durable payload => exact ⟨isPlain, fresh, durable, payload⟩
    | absent stale => simp [stale] at live
  absent := fun stale => by
    cases copied with
    | container entered =>
        rw [isLive_of_isMulti (finished.state.multi entered)] at stale
        contradiction
    | same durable live => simp [live] at stale
    | plain scratch isPlain =>
        rw [isLive_of_isPlainData isPlain] at stale
        contradiction
    | absent => rfl

/-- Of the references in the heap, those that are new are in new cells. -/
theorem count_references (finished : Finished source heap copies value answer)
    (consistent : source.Consistent) (other : Value) :
    heap.references.count other = source.references.count other +
      ((source.newCells heap).flatMap heap.children).count other := by
  have grows := finished.state.toGrows
  have live : ∀ {cell}, source.isLive cell = true → heap.isLive cell = true := by
    intro cell isLive
    rwa [grows.live (consistent.issued isLive)]
  have distinct : (source.newCells heap).Nodup := handles_nodup.filter _
  apply count_references_of_gone heap source distinct
  · exact fun cell isNew => (mem_newCells_iff.mp isNew).1
  · intro cell
    rw [mem_newCells_iff]
    by_cases before : source.isLive cell = true
    · simp [before, live before]
    · simp [before]
  · intro cell outside
    by_cases before : source.isLive cell = true
    · exact (children_of_payload_eq (grows.payload (consistent.issued before))).symm
    · rw [Bool.not_eq_true] at before
      have after : heap.isLive cell = false := by
        apply eq_false_of_ne_true
        intro isLive
        exact outside (mem_newCells_iff.mpr ⟨isLive, before⟩)
      rw [children_of_not_isLive before, children_of_not_isLive after]

/-- A finished copying has made the same graph. -/
theorem sameGraph (finished : Finished source heap copies value answer)
    (consistent : source.Consistent) : SameGraph source heap value answer (imageIn copies) := by
  have state := finished.state
  have live : ∀ {container}, source.HasContainer value container →
      heap.isLive (imageIn copies container) = true := by
    intro container has
    apply isLive_of_isMulti
    rw [state.kind_copy (finished.entered has)]
    exact has.2
  exact
    { answer := finished.imageOf finished.copied
      injective := fun has hasOther same =>
        state.injective (finished.entered has) (same ▸ finished.entered hasOther)
      new := fun has =>
        ⟨state.fresh (finished.entered has), live has, state.durable (finished.entered has)⟩
      onto := fun {made} stale multi => by
        have fresh : ¬source.Issued made := by
          intro issued
          rw [← state.live issued, isLive_of_isMulti multi] at stale
          contradiction
        obtain ⟨key, entered⟩ := state.covered fresh multi
        exact ⟨key, ⟨finished.below entered, state.multi entered⟩, finished.imageIn_eq entered⟩
      kind := fun has => state.kind_copy (finished.entered has)
      children := fun {container} has => by
        obtain ⟨children, payload, copied⟩ :=
          state.filled (finished.entered has) List.not_mem_nil
        have content : heap.children (imageIn copies container) = children := by
          rw [Heap.children, payload, Payload.children_withChildren_of_isMulti has.2]
        rw [content]
        exact copied.imp fun _ _ copyOf => finished.imageOf copyOf
      pairs := fun {container content} has found => by
        obtain ⟨children, payload, -⟩ := state.filled (finished.entered has) List.not_mem_nil
        rw [table?_eq_some_iff.mp found] at payload
        exact ⟨_, table?_eq_some_iff.mpr payload, rfl⟩
      refs := fun {container} has => by
        have counted := finished.balanced.refs_eq (state.fresh (finished.entered has)) (live has)
        rw [finished.count_references consistent, Multiset.count_zero] at counted
        omega }

end Finished

/-- Copying ends, for every value and whatever handles the heap holds, and changes no cell that was
there.  If no container below the value holds a handle that names nothing and comes to name
something while the value is copied, the copy is the same graph on new cells. -/
theorem Runs.clone_same_graph {config : Config} (runs : Runs True (.new config) heap)
    (value : Value) :
    (∃ copies, Copied [] value heap ((heap.clone value).1, copies, (heap.clone value).2)) ∧
    (∀ other, heap.isLive other = true → (heap.clone value).2.isLive other = true ∧
      (heap.clone value).2.payload other = heap.payload other) ∧
    ((∀ holder, heap.Below value holder → ∀ child ∈ heap.children holder,
        heap.isLive child = true ∨ (heap.clone value).2.isLive child = false) →
      ∃ image, SameGraph heap (heap.clone value).2 value (heap.clone value).1 image) := by
  have proper := runs.proper_new
  have consistent := proper.toConsistent
  have grows := Grows.clone consistent value
  refine ⟨copied_clone consistent value, fun other live => ?_, fun unforetold => ?_⟩
  · have issued := consistent.issued live
    exact ⟨(grows.live issued).trans live, grows.payload issued⟩
  · have settled : heap.Settled (heap.clone value).2 value := by
      intro other below
      rcases Relation.ReflTransGen.cases_tail below with rfl | ⟨holder, before, member⟩
      · cases live : heap.isLive other with
        | true => exact .inl (consistent.issued live)
        | false =>
            rw [clone_of_not_isLive live]
            exact .inr live
      · exact (unforetold holder before other member).imp_left consistent.issued
    obtain ⟨copies, finished⟩ := finished_clone proper settled
    exact ⟨imageIn copies, finished.sameGraph consistent⟩

/-- A hash, with an array in it that holds itself, the hash, a string, and a handle that was never
issued. -/
def knotting : List (Request .bare) :=
  [.string "a", .arrayOf [.cell ⟨0, 0⟩, .cell ⟨9, 9⟩], .hash,
    .pushItem (.cell ⟨1, 0⟩) (.cell ⟨1, 0⟩), .setKey (.cell ⟨2, 0⟩) (.cell ⟨0, 0⟩) (.cell ⟨1, 0⟩),
    .pushItem (.cell ⟨1, 0⟩) (.cell ⟨2, 0⟩)]

theorem isSome_knotted : ((new { hashBuckets := 1 }).performAll? knotting).isSome = true := by
  decide +kernel

def knotted : Heap .bare :=
  ((new { hashBuckets := 1 }).performAll? knotting).get isSome_knotted

theorem knotted_hash_is_copied :
    Runs True (.new { hashBuckets := 1 }) knotted ∧
      (∃ image, SameGraph knotted (knotted.clone (.cell ⟨2, 0⟩)).2 (.cell ⟨2, 0⟩)
        (knotted.clone (.cell ⟨2, 0⟩)).1 image) ∧
      (knotted.clone (.cell ⟨2, 0⟩)).1 = .cell ⟨4, 0⟩ ∧
      (knotted.clone (.cell ⟨2, 0⟩)).2.children (.cell ⟨6, 0⟩) =
        [.cell ⟨0, 0⟩, .null, .cell ⟨6, 0⟩, .cell ⟨4, 0⟩] := by
  have runs : Runs True (.new { hashBuckets := 1 }) knotted :=
    Runs.refl.performAll? (Option.some_get isSome_knotted).symm
  have unforetold : ∀ holder ∈ knotted.handles, ∀ child ∈ knotted.children holder,
      knotted.isLive child = true ∨ (knotted.clone (.cell ⟨2, 0⟩)).2.isLive child = false := by
    decide +kernel
  have live : ∀ {holder child}, child ∈ knotted.children holder → holder ∈ knotted.handles :=
    fun member => mem_handles_iff.mpr (isLive_of_isMulti (isMulti_of_mem_children member))
  obtain ⟨-, -, copying⟩ := runs.clone_same_graph (.cell ⟨2, 0⟩)
  have graph := copying fun holder _ child member => unforetold holder (live member) child member
  have answer : (knotted.clone (.cell ⟨2, 0⟩)).1 = .cell ⟨4, 0⟩ := by
    decide +kernel
  have items : (knotted.clone (.cell ⟨2, 0⟩)).2.children (.cell ⟨6, 0⟩) =
      [.cell ⟨0, 0⟩, .null, .cell ⟨6, 0⟩, .cell ⟨4, 0⟩] := by
    decide +kernel
  exact ⟨runs, graph, answer, items⟩

/-! ## A foretold handle -/

/-- An array that holds the handle which the next cell will have. -/
def foretelling : Heap .bare :=
  ((new {}).arrayOf [.cell ⟨1, 0⟩]).2

/-- The next cell is the copy of the array.  The handle names nothing when the copying begins, but
the copy of it is not absent: it is a copy of the copy. -/
theorem foretold_child_is_copied :
    ¬∀ {heap : Heap .bare}, Runs True (.new {}) heap → ∀ value, ∃ image,
      SameGraph heap (heap.clone value).2 value (heap.clone value).1 image := by
  intro always
  have runs : Runs True (.new {}) foretelling :=
    .request .refl (show perform _ (.arrayOf [.cell ⟨1, 0⟩]) = .ok _ from rfl)
  obtain ⟨image, same⟩ := always runs (.cell ⟨0, 0⟩)
  have has : foretelling.HasContainer (.cell ⟨0, 0⟩) (.cell ⟨0, 0⟩) := ⟨.refl, by decide +kernel⟩
  have children := same.children has
  rw [← same.answer.container has.2] at children
  have before : foretelling.children (.cell ⟨0, 0⟩) = [.cell ⟨1, 0⟩] := by decide +kernel
  have after : (foretelling.clone (.cell ⟨0, 0⟩)).2.children
      (foretelling.clone (.cell ⟨0, 0⟩)).1 = [.cell ⟨2, 0⟩] := by
    decide +kernel
  rw [before, after] at children
  cases children with
  | cons child _ => exact nomatch child.absent (by decide +kernel)

end CountedHeap.Heap
