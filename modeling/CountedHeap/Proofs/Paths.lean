import CountedHeap.Proofs.Tables
import CountedHeap.Proofs.Thinning
import CountedHeap.Path
import CountedHeap.Registry

/-!
Contract: writes at the end of a path, and of a registry, write one container at most.

Owns:
- `storeSite`, the container in which a write at a path stores something, found without
  writing;
- one step for each operation.
-/

namespace CountedHeap

namespace Heap

variable {σ : Signature} {heap heap' : Heap σ} {held : Multiset Value}

/-- What storing something in a container may write: the container, and the buckets of a
hash. -/
def storeCells (heap : Heap σ) (container : Value) : Set Value :=
  {value | value = container ∨ heap.kind container = .hash ∧ value ∈ heap.children container}

theorem tableCells_eq_storeCells {table : Value} (isHash : heap.kind table = .hash) :
    heap.tableCells table = heap.storeCells table := by
  ext value
  simp [tableCells, storeCells, isHash]

theorem exists_table?_of_kind {table : Value} (isHash : heap.kind table = .hash) :
    ∃ content, heap.table? table = some content := by
  unfold kind at isHash
  unfold table?
  cases form : heap.payload table <;> simp_all [Payload.kind, Payload.table?]

/-- A container may be written in a later heap as far as it may be written now. -/
theorem Keeps.storeCells {free : Set Value} (keeps : Keeps free heap heap')
    {container value : Value} (issued : heap.Issued value)
    (present : value ≠ .null) (member : value ∈ heap'.storeCells container) :
    value ∈ heap.storeCells container := by
  rcases member with same | ⟨isHash, child⟩
  · exact .inl same
  · obtain ⟨content, found⟩ := exists_table?_of_kind isHash
    rw [children_of_table? found] at child
    obtain ⟨-, before, foundBefore, member⟩ := keeps.bucket issued ⟨present, content, found, child⟩
    exact .inr ⟨kind_of_table? foundBefore, by rwa [children_of_table? foundBefore]⟩

theorem Sound.not_isBucket (sound : heap.Sound held) {value : Value}
    (notArray : heap.kind value ≠ .array) : ¬heap.IsBucket value := by
  rintro ⟨table, present, content, found, member⟩
  exact notArray (((sound.tables found).array member).resolve_left present)

theorem Step.scratchString (sound : heap.Sound held) (content : String) :
    Step ∅ True heap (heap.scratchString content).2 held :=
  .createScratch sound rfl (.inl rfl)

theorem payload_scratchString (content : String) :
    (heap.scratchString content).2.payload (heap.scratchString content).1 = .text content := by
  have found : (heap.scratchString content).2.cell? (heap.scratchString content).1 =
      some { payload := .text content } := by
    rw [Heap.scratchString, cell?_createScratch, if_pos rfl]
  rw [payload_of_cell? found]

theorem issued_scratchString (sound : heap.Sound held) (content : String) :
    (heap.scratchString content).2.Issued (heap.scratchString content).1 :=
  (Step.scratchString sound content).sound.toConsistent.issued
    (isLive_of_payload_ne (by rw [payload_scratchString]; simp))

/-- Storing in a hash under a text, which is made a scratch string first. -/
theorem Step.setText (sound : heap.Sound held) {table value answer : Value} {text : String}
    (isHash : heap.kind table = .hash) (issued : heap.Issued value)
    (done : (heap.scratchString text).2.setKey table (heap.scratchString text).1 value =
      .ok (answer, heap')) :
    Step (heap.storeCells table) True heap heap' held := by
  have making := Step.scratchString sound text
  have issuedTable := sound.toConsistent.issued (isLive_of_kind_ne (by rw [isHash]; decide))
  have fixed : ((heap.scratchString text).2.kind (heap.scratchString text).1).hasFixedText =
      true := by
    rw [kind, payload_scratchString]
    rfl
  have storing := Step.setKey making.sound (issued_scratchString sound text)
    (making.keeps.issued issued) done
  rw [tableCells_eq_storeCells (by rw [making.keeps.kind issuedTable, isHash])] at storing
  exact making.weaken.trans storing
    (fun valueIssued present => making.keeps.storeCells valueIssued present)
    (fun _ => fixed)

theorem Step.putChild (sound : heap.Sound held) {container value answer : Value} {part : String}
    (issued : heap.Issued value)
    (done : heap.putChild container part value = .ok (answer, heap')) :
    Step (heap.storeCells container) (¬heap.IsBucket container) heap heap' held := by
  unfold Heap.putChild at done
  split at done
  next isHash =>
    exact (Step.setText sound isHash issued done).mono (fun _ _ => id) fun _ => trivial
  next =>
    exact (Step.setItem sound issued done).mono
      (fun _ _ isContainer => .inl isContainer) id
  next =>
    exact (Step.setItem sound issued done).mono
      (fun _ _ isContainer => .inl isContainer) id
  next =>
    obtain ⟨-, rfl⟩ := Prod.mk.inj (Except.ok.inj done)
    exact .refl _ _ sound

/-! ## Walking down a path -/

/-- The container in which a write at a path stores something: the last one there is on the
way, or the absent value if nothing is stored. -/
def storeSite (heap : Heap σ) : Value → List String → Value
  | _, [] => .null
  | current, part :: rest =>
      if heap.hasPlaceFor current part then
        match rest with
        | [] => current
        | _ :: _ =>
            let next := heap.childAt current part
            if heap.kind next = .null then current
            else if (heap.kind next).isMulti then heap.storeSite next rest
            else .null
      else .null

/-- In a new hash nothing is found, so everything below it is stored in it. -/
theorem storeSite_of_empty {table : Value} (found : heap.table? table = some {})
    {part : String} {rest : List String} : heap.storeSite table (part :: rest) = table := by
  have isHash := kind_of_table? found
  have place : heap.hasPlaceFor table part = true := by
    rw [hasPlaceFor, isHash]
  have missing : heap.childAt table part = .null := by
    rw [childAt, isHash]
    simp [getText, locate?, found]
  cases rest with
  | nil => rw [storeSite, if_pos place]
  | cons next others =>
      rw [storeSite, if_pos place]
      simp only [missing, kind_null, if_true]

theorem Step.hash (sound : heap.Sound held) : Step ∅ True heap heap.hash.2 held :=
  .createSingle sound rfl (fun _ isHash => (Payload.hash.inj isHash).symm)

theorem table?_hash (sound : heap.Sound held) : heap.hash.2.table? heap.hash.1 = some {} :=
  table?_eq_some_iff.mpr
    (payload_create_self sound.toConsistent (.hash {} : Payload σ))

theorem isLive_of_hasPlaceFor {container : Value} {part : String}
    (place : heap.hasPlaceFor container part = true) : heap.isLive container = true := by
  refine isLive_of_kind_ne fun absent => ?_
  rw [hasPlaceFor, absent] at place
  contradiction

/-- A missing step: a new hash is stored here, and everything else in the new hash. -/
theorem Step.storeMissing {current value stored : Value} {part following : String}
    {others : List String} {between : Heap σ} (sound : heap.Sound held)
    (issued : heap.Issued value) (place : heap.hasPlaceFor current part = true)
    (putting : heap.hash.2.putChild current part heap.hash.1 = .ok (stored, between))
    (below : between.Sound held → between.Issued value →
      Step (between.storeCells (between.storeSite heap.hash.1 (following :: others)))
        (¬between.IsBucket (between.storeSite heap.hash.1 (following :: others))) between heap'
        held) :
    Step (heap.storeCells current) (¬heap.IsBucket current) heap heap' held := by
  have making := Step.hash sound
  have fresh : ¬heap.Issued heap.hash.1 := not_issued_create sound.toConsistent _
  have issuedNext : heap.hash.2.Issued heap.hash.1 := issued_create sound _
  have issuedCurrent := sound.toConsistent.issued (isLive_of_hasPlaceFor place)
  have put := Step.putChild making.sound issuedNext putting
  have outside : heap.hash.1 ∉ heap.hash.2.storeCells current := by
    rintro (same | ⟨-, child⟩)
    · exact fresh (same ▸ issuedCurrent)
    · rw [children, making.keeps.payload issuedCurrent fun none => none.elim, ← children] at child
      exact fresh (sound.issued_child child)
  have found : between.table? heap.hash.1 = some {} :=
    put.keeps.table? making.sound (table?_hash sound) outside
  have first := making.weaken.trans put
    (fun valueIssued present => making.keeps.storeCells valueIssued present)
    (making.keeps.not_isBucket issuedCurrent)
  have second := below first.sound (first.keeps.issued issued)
  rw [storeSite_of_empty found] at second
  refine first.trans second (fun valueIssued _ written => ?_)
    (fun _ => first.sound.not_isBucket (by rw [kind_of_table? found]; decide))
  rcases written with same | ⟨-, child⟩
  · exact absurd (same ▸ valueIssued) fresh
  · rw [children_of_table? found] at child
    simp at child

theorem Step.storeBelow (sound : heap.Sound held) {current value answer : Value}
    {parts : List String} (issued : heap.Issued value)
    (done : storeBelow current parts value heap = .ok (answer, heap')) :
    Step (heap.storeCells (heap.storeSite current parts))
      (¬heap.IsBucket (heap.storeSite current parts)) heap heap' held := by
  induction parts generalizing heap current with
  | nil =>
      obtain ⟨-, rfl⟩ := Prod.mk.inj (Except.ok.inj done)
      exact .refl _ _ sound
  | cons part rest inductionHypothesis =>
      cases place : heap.hasPlaceFor current part with
      | false =>
          simp only [Heap.storeBelow, place] at done
          obtain ⟨-, rfl⟩ := Prod.mk.inj (Except.ok.inj done)
          exact .refl _ _ sound
      | true =>
          cases rest with
          | nil =>
              simp only [Heap.storeBelow, storeSite, place, if_true] at done ⊢
              exact .putChild sound issued done
          | cons following others =>
              rw [Heap.storeBelow] at done
              simp only [storeSite, place, if_true] at done ⊢
              split at done
              next missing =>
                rw [if_pos missing]
                obtain ⟨⟨stored, between⟩, putting, last⟩ := bind_eq_ok.mp done
                exact .storeMissing sound issued place putting
                  (fun between issued => inductionHypothesis between issued last)
              next present =>
                rw [if_neg present]
                split at done
                next multi =>
                  rw [if_pos multi]
                  exact inductionHypothesis sound issued done
                next single =>
                  rw [if_neg single]
                  obtain ⟨-, rfl⟩ := Prod.mk.inj (Except.ok.inj done)
                  exact .refl _ _ sound

theorem Step.setPath (sound : heap.Sound held) {root path value answer : Value}
    (issued : heap.Issued value) (done : heap.setPath root path value = .ok (answer, heap')) :
    Step (heap.storeCells (heap.storeSite root (heap.pathParts path)))
      (¬heap.IsBucket (heap.storeSite root (heap.pathParts path))) heap heap' held := by
  obtain ⟨⟨stored, after⟩, storing, last⟩ := bind_eq_ok.mp done
  obtain ⟨-, rfl⟩ := Prod.mk.inj (Except.ok.inj last)
  exact (Step.storeBelow sound issued storing).unwind

end Heap

/-! ## Registries -/

namespace Registry

variable {σ : Signature} {heap heap' : Heap σ} {held : Multiset Value}

theorem installEntries_step (sound : heap.Sound held) {table : Value}
    (isHash : heap.kind table = .hash) {entries : List (String × Function σ)}
    (done : installEntries table entries heap = .ok heap') :
    Heap.Step (heap.storeCells table) True heap heap' held := by
  induction entries generalizing heap with
  | nil =>
      obtain rfl := Except.ok.inj done
      exact .refl _ _ sound
  | cons entry rest inductionHypothesis =>
      obtain ⟨name, function⟩ := entry
      obtain ⟨⟨stored, after⟩, storing, last⟩ := bind_eq_ok.mp done
      have issuedTable := sound.toConsistent.issued
        (Heap.isLive_of_kind_ne (by rw [isHash]; decide))
      have making : Heap.Step ∅ True heap (heap.native function).2 held :=
        .createSingle sound rfl (by simp)
      have install := Heap.Step.setText making.sound (by rw [making.keeps.kind issuedTable, isHash])
        (Heap.issued_create sound _) storing
      have first := making.weaken.trans install
        (fun issued present => making.keeps.storeCells issued present) id
      exact first.trans
        (inductionHypothesis first.sound (by rw [first.keeps.kind issuedTable, isHash]) last)
        (fun issued present => first.keeps.storeCells issued present) id

theorem installInto_step (sound : heap.Sound held) {registry : Registry σ} {table : Value}
    {count : Nat} (done : registry.installInto heap table = .ok (count, heap')) :
    Heap.Step (heap.storeCells table) True heap heap' held := by
  unfold installInto at done
  split at done
  next isHash =>
    obtain ⟨⟨installed, after⟩, installing, last⟩ := bind_eq_ok.mp done
    obtain ⟨-, rfl⟩ := Prod.mk.inj (Except.ok.inj last)
    obtain ⟨between, entries, last⟩ := bind_eq_ok.mp installing
    obtain ⟨-, rfl⟩ := Prod.mk.inj (Except.ok.inj last)
    exact (installEntries_step sound isHash entries).unwind
  next =>
    obtain ⟨-, rfl⟩ := Prod.mk.inj (Except.ok.inj done)
    exact .refl _ _ sound

end Registry

end CountedHeap
