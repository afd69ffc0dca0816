import CountedHeap.Heap.Scratch
import CountedHeap.Proofs.Sweeping

/-!
Contract: everything that happens to a heap is a chain of elementary changes.

A trace lists the handles that its changes made, oldest first.  No condition is put on the
handles that a change is given: they may be stale, or may never have been issued.

`loose` says whether a cell may be made that holds scratch values.  No operation of the library
makes one.  `floor` is the size of the pool below which nothing is dropped.

Owns:
- elementary changes and traces;
- the handles that a trace makes are new, and whatever is live at its end was live before or is
  one of them;
- `Proper`, which every change keeps, and the part of the pool below the floor, which no change
  touches.
-/

namespace CountedHeap

/-- A value that a container may hold. -/
def Storable (loose : Prop) (value : Value) : Prop :=
  value.isScratch = true → loose

theorem storable_of_durable {loose : Prop} {value : Value} (durable : value.isScratch = false) :
    Storable loose value := by
  intro scratch
  rw [durable] at scratch
  contradiction

theorem Storable.durable {value : Value} (storable : Storable False value) :
    value.isScratch = false :=
  eq_false_of_ne_true storable

namespace Heap

variable {σ : Signature} {loose : Prop} {floor : Nat} {first heap heap' heap'' : Heap σ}
  {made made' : List Value}

/-- One elementary change, with the handle that it makes if it makes one. -/
inductive Change (loose : Prop) (floor : Nat) (heap : Heap σ) : List Value → Heap σ → Prop
  | create {payload : Payload σ}
      (storable : ∀ child ∈ payload.children, Storable loose child) :
      Change loose floor heap [(heap.create payload).1] (heap.create payload).2
  | createScratch {payload : Payload σ} (childless : payload.children = [])
      (pooled : payload.isPlainData = true ∨ payload.kind = .array) :
      Change loose floor heap [(heap.createScratch payload).1] (heap.createScratch payload).2
  | retain (value : Value) : Change loose floor heap [] (heap.retain value)
  | release (value : Value) : Change loose floor heap [] (heap.release value)
  | setPayload {target : Value} {payload : Payload σ}
      (sameKind : payload.kind = heap.kind target) (multi : payload.kind.isMulti = true)
      (storable : ∀ child ∈ payload.children,
        child ∈ heap.children target ∨ Storable loose child) :
      Change loose floor heap [] (heap.setPayload target payload)
  | vacate {index : Nat} {cell : Cell σ} (occupied : heap.occupant? index = some cell)
      (unheld : cell.refs = 0) : Change loose floor heap [] (heap.vacate index)
  | dropScratch {mark : Nat} (above : floor ≤ mark) :
      Change loose floor heap [] (heap.dropScratch mark)
  | tune (config : Config) (cursor allocated : Nat) :
      Change loose floor heap [] { heap with config, cursor, allocated }

/-- A chain of elementary changes, with all handles that it makes. -/
inductive Trace (loose : Prop) (floor : Nat) (first : Heap σ) : List Value → Heap σ → Prop
  | refl : Trace loose floor first [] first
  | step {made made' : List Value} {heap heap' : Heap σ}
      (before : Trace loose floor first made heap) (change : Change loose floor heap made' heap') :
      Trace loose floor first (made ++ made') heap'

theorem Trace.trans (before : Trace loose floor first made heap)
    (after : Trace loose floor heap made' heap') :
    Trace loose floor first (made ++ made') heap' := by
  induction after with
  | refl => rwa [List.append_nil]
  | step _ change inductionHypothesis =>
      rw [← List.append_assoc]
      exact .step inductionHypothesis change

/-! ## Handles that are made -/

theorem Change.consistent (change : Change loose floor heap made heap')
    (consistent : heap.Consistent) : heap'.Consistent := by
  cases change with
  | create => exact consistent.create _
  | createScratch => exact consistent.createScratch _
  | retain value => exact consistent.modifyCell value _
  | release value => exact consistent.modifyCell value _
  | setPayload => exact consistent.modifyCell _ _
  | vacate occupied => exact consistent.vacate occupied
  | dropScratch => exact consistent.dropScratch _
  | tune => exact ⟨consistent.free_nodup, consistent.mem_free, consistent.serial_lt⟩

theorem Trace.consistent (trace : Trace loose floor first made heap)
    (consistent : first.Consistent) : heap.Consistent := by
  induction trace with
  | refl => exact consistent
  | step _ change inductionHypothesis => exact change.consistent inductionHypothesis

/-- No change takes back a handle. -/
theorem Change.issued (change : Change loose floor heap made heap') {value : Value}
    (issued : heap.Issued value) : heap'.Issued value := by
  cases change with
  | create => exact issued.create _
  | createScratch => exact issued.createScratch _
  | retain other => exact (issued_retain other value).mpr issued
  | release other => exact (issued_release other value).mpr issued
  | setPayload => exact (issued_setPayload _ _ _).mpr issued
  | vacate => exact issued.vacate _
  | dropScratch => cases value <;> exact issued
  | tune => cases value <;> exact issued

theorem Trace.issued (trace : Trace loose floor first made heap) {value : Value}
    (issued : first.Issued value) : heap.Issued value := by
  induction trace with
  | refl => exact issued
  | step _ change inductionHypothesis => exact change.issued inductionHypothesis

/-- A handle that is made is issued by the change and was not issued before. -/
theorem Change.made_new (change : Change loose floor heap made heap') (consistent : heap.Consistent)
    {value : Value} (member : value ∈ made) : ¬heap.Issued value ∧ heap'.Issued value := by
  cases change with
  | create =>
      obtain rfl := List.mem_singleton.mp member
      exact ⟨not_issued_create consistent _, issued_create_self consistent _⟩
  | createScratch =>
      obtain rfl := List.mem_singleton.mp member
      exact ⟨not_issued_createScratch _, Nat.lt_succ_self _⟩
  | retain | release | setPayload | vacate | dropScratch | tune => contradiction

theorem Change.nodup (change : Change loose floor heap made heap') : made.Nodup := by
  cases change with
  | create | createScratch => exact List.nodup_singleton _
  | retain | release | setPayload | vacate | dropScratch | tune => exact List.nodup_nil

/-- What is live after a change was live before or is made by it. -/
theorem Change.live (change : Change loose floor heap made heap') (consistent : heap.Consistent)
    {value : Value} (live : heap'.isLive value = true) :
    heap.isLive value = true ∨ value ∈ made := by
  cases change with
  | create =>
      rw [isLive_create consistent, Bool.or_eq_true, decide_eq_true_eq] at live
      exact live.symm.imp_right List.mem_singleton.mpr
  | createScratch =>
      rw [isLive_createScratch, Bool.or_eq_true, decide_eq_true_eq] at live
      exact live.symm.imp_right List.mem_singleton.mpr
  | retain other => exact .inl (isLive_retain other value ▸ live)
  | release other => exact .inl (isLive_release other value ▸ live)
  | setPayload => exact .inl (isLive_setPayload _ value _ ▸ live)
  | @vacate index =>
      simp only [isLive, cell?_vacate] at live
      split at live
      next => contradiction
      next => exact .inl live
  | dropScratch =>
      refine .inl ?_
      rwa [isLive_eq_of_cell?_eq (cell?_dropScratch_of_isLive _ live)] at live
  | tune => cases value <;> exact .inl live

theorem Trace.made_new (trace : Trace loose floor first made heap) (consistent : first.Consistent)
    {value : Value} (member : value ∈ made) : ¬first.Issued value ∧ heap.Issued value := by
  induction trace with
  | refl => contradiction
  | step before change inductionHypothesis =>
      rcases List.mem_append.mp member with early | late
      · obtain ⟨fresh, issued⟩ := inductionHypothesis early
        exact ⟨fresh, change.issued issued⟩
      · obtain ⟨fresh, issued⟩ := change.made_new (before.consistent consistent) late
        exact ⟨fun early => fresh (before.issued early), issued⟩

/-- No handle is made twice. -/
theorem Trace.nodup (trace : Trace loose floor first made heap)
    (consistent : first.Consistent) : made.Nodup := by
  induction trace with
  | refl => exact List.nodup_nil
  | step before change inductionHypothesis =>
      apply List.Nodup.append inductionHypothesis change.nodup
      intro value early late
      obtain ⟨-, issued⟩ := before.made_new consistent early
      exact (change.made_new (before.consistent consistent) late).1 issued

theorem Trace.live (trace : Trace loose floor first made heap) (consistent : first.Consistent)
    {value : Value} (live : heap.isLive value = true) :
    first.isLive value = true ∨ value ∈ made := by
  induction trace with
  | refl => exact .inl live
  | step before change inductionHypothesis =>
      rcases change.live (before.consistent consistent) live with early | late
      · exact (inductionHypothesis early).imp_right (List.mem_append_left _)
      · exact .inr (List.mem_append_right _ late)

/-- A handle that was issued and names nothing will never name anything. -/
theorem Trace.stale (trace : Trace loose floor first made heap) (consistent : first.Consistent)
    {value : Value} (issued : first.Issued value) (stale : first.isLive value = false) :
    heap.isLive value = false := by
  apply eq_false_of_ne_true
  intro live
  rcases trace.live consistent live with early | late
  · rw [stale] at early
    contradiction
  · exact (trace.made_new consistent late).1 issued

/-- What is live before and after a change keeps its kind. -/
theorem Change.kind_eq (change : Change loose floor heap made heap') (consistent : heap.Consistent)
    {value : Value} (issued : heap.Issued value) (live : heap'.isLive value = true) :
    heap'.kind value = heap.kind value := by
  cases change with
  | create => rw [kind, payload_create_of_issued consistent _ issued, kind]
  | @createScratch payload =>
      have old : value ≠ (heap.createScratch payload).1 := by
        rintro rfl
        exact not_issued_createScratch payload issued
      have same : (heap.createScratch payload).2.cell? value = heap.cell? value := by
        rw [cell?_createScratch, if_neg old]
      rw [kind, kind, payload_eq_of_cell?_eq same]
  | retain other => rw [kind, payload_retain, kind]
  | release other => rw [kind, payload_release, kind]
  | setPayload sameKind => exact kind_setPayload sameKind value
  | vacate => rw [kind, kind, payload_eq_of_cell?_eq (cell?_vacate_of_isLive live)]
  | dropScratch => rw [kind, kind, payload_eq_of_cell?_eq (cell?_dropScratch_of_isLive _ live)]
  | tune => cases value <;> rfl

/-- What was issued before a trace and is live after it keeps its kind. -/
theorem Trace.kind_eq (trace : Trace loose floor first made heap) (consistent : first.Consistent)
    {value : Value} (issued : first.Issued value) (live : heap.isLive value = true) :
    heap.kind value = first.kind value := by
  induction trace with
  | refl => rfl
  | step before change inductionHypothesis =>
      have between := before.consistent consistent
      have issuedBetween := before.issued issued
      rcases change.live between live with liveBetween | new
      · exact (change.kind_eq between issuedBetween live).trans (inductionHypothesis liveBetween)
      · exact absurd issuedBetween (change.made_new between new).1

/-! ## The pool below the floor -/

/-- The serial numbers of the scratch cells, in the order of the pool. -/
def serials (heap : Heap σ) : List Nat :=
  heap.scratch.toList.map (·.serial)

theorem length_serials : heap.serials.length = heap.scratch.size := by
  rw [serials, List.length_map, Array.length_toList]

theorem serials_modifyCell (value : Value) (change : Cell σ → Cell σ) :
    (heap.modifyCell value change).serials = heap.serials := by
  cases value with
  | null => rfl
  | cell id => rfl
  | scratch id =>
      apply List.ext_getElem?
      intro index
      simp only [serials, modifyCell, List.getElem?_map, Array.getElem?_toList,
        Array.getElem?_modify]
      split
      next here =>
        subst here
        rw [Option.map_map]
        cases heap.scratch[id.index]? with
        | none => rfl
        | some slot =>
            simp only [Option.map_some, Function.comp_apply, Option.some.injEq]
            split <;> rfl
      next => rfl

theorem serials_createScratch (payload : Payload σ) :
    (heap.createScratch payload).2.serials = heap.serials ++ [heap.nextSerial] := by
  simp [serials, createScratch]

theorem serials_dropScratch (mark : Nat) :
    (heap.dropScratch mark).serials = heap.serials.take mark := by
  simp [serials, dropScratch]

/-- A change drops no scratch cell below the floor, and puts no other in its place. -/
theorem Change.serials (change : Change loose floor heap made heap')
    (inside : floor ≤ heap.scratch.size) :
    floor ≤ heap'.scratch.size ∧ heap'.serials.take floor = heap.serials.take floor := by
  rw [← length_serials] at inside ⊢
  cases change with
  | @create payload =>
      have same : (heap.create payload).2.serials = heap.serials := by
        unfold Heap.create
        split <;> rfl
      rw [same]
      exact ⟨inside, rfl⟩
  | createScratch =>
      rw [serials_createScratch, List.length_append, List.take_append_of_le_length inside]
      exact ⟨Nat.le_trans inside (Nat.le_add_right _ _), rfl⟩
  | retain =>
      rw [Heap.retain, serials_modifyCell]
      exact ⟨inside, rfl⟩
  | release =>
      rw [Heap.release, serials_modifyCell]
      exact ⟨inside, rfl⟩
  | setPayload =>
      rw [Heap.setPayload, serials_modifyCell]
      exact ⟨inside, rfl⟩
  | dropScratch above =>
      rw [serials_dropScratch, List.length_take, List.take_take, Nat.min_eq_left above]
      exact ⟨Nat.le_min.mpr ⟨above, inside⟩, rfl⟩
  | vacate | tune => exact ⟨inside, rfl⟩

theorem Trace.serials (trace : Trace loose floor first made heap)
    (inside : floor ≤ first.scratch.size) :
    floor ≤ heap.scratch.size ∧ heap.serials.take floor = first.serials.take floor := by
  induction trace with
  | refl => exact ⟨inside, rfl⟩
  | step _ change inductionHypothesis =>
      obtain ⟨below, same⟩ := inductionHypothesis
      obtain ⟨belowAfter, sameAfter⟩ := change.serials below
      exact ⟨belowAfter, sameAfter.trans same⟩

/-! ## What every change keeps -/

theorem mem_cellHandles_iff {value : Value} :
    value ∈ heap.cellHandles ↔ value.isScratch = false ∧ heap.isLive value = true := by
  constructor
  · intro member
    have live := isLive_of_mem_handles (List.mem_append_left heap.scratchHandles member)
    obtain ⟨index, -, found⟩ := List.mem_filterMap.mp member
    cases slotFound : heap.slots[index]? with
    | none => simp [slotFound] at found
    | some slot =>
        obtain ⟨cell, -, rfl⟩ : ∃ cell, slot.cell = some cell ∧
            Value.cell ⟨index, slot.generation⟩ = value := by simpa [slotFound] using found
        exact ⟨rfl, live⟩
  · rintro ⟨durable, live⟩
    refine (List.mem_append.mp (mem_handles_iff.mpr live)).resolve_right ?_
    intro pooled
    obtain ⟨index, -, found⟩ := List.mem_filterMap.mp pooled
    obtain ⟨slot, -, rfl⟩ := Option.map_eq_some_iff.mp found
    contradiction

theorem cellHandles_nodup : heap.cellHandles.Nodup :=
  heap.handles_nodup.sublist (List.sublist_append_left _ _)

/-- Two heaps with the same long-lived cells have equally many. -/
theorem length_cellHandles_congr
    (live : ∀ value, value.isScratch = false → heap'.isLive value = heap.isLive value) :
    heap'.cellHandles.length = heap.cellHandles.length := by
  apply List.Perm.length_eq
  apply (List.perm_ext_iff_of_nodup cellHandles_nodup cellHandles_nodup).mpr
  intro value
  rw [mem_cellHandles_iff, mem_cellHandles_iff]
  exact and_congr_right fun durable => by rw [live value durable]

/-- One long-lived cell more. -/
theorem length_cellHandles_succ {new : Value} (durable : new.isScratch = false)
    (fresh : heap.isLive new = false)
    (live : ∀ value, heap'.isLive value = true ↔ value = new ∨ heap.isLive value = true) :
    heap'.cellHandles.length = heap.cellHandles.length + 1 := by
  have outside : new ∉ heap.cellHandles := by
    intro member
    rw [(mem_cellHandles_iff.mp member).2] at fresh
    contradiction
  have perm : heap'.cellHandles.Perm (new :: heap.cellHandles) := by
    apply (List.perm_ext_iff_of_nodup cellHandles_nodup
      (List.nodup_cons.mpr ⟨outside, cellHandles_nodup⟩)).mpr
    intro value
    rw [List.mem_cons, mem_cellHandles_iff, mem_cellHandles_iff, live]
    constructor
    · rintro ⟨isDurable, rfl | isLive⟩
      · exact .inl rfl
      · exact .inr ⟨isDurable, isLive⟩
    · rintro (rfl | ⟨isDurable, isLive⟩)
      · exact ⟨durable, .inl rfl⟩
      · exact ⟨isDurable, .inr isLive⟩
  rw [perm.length_eq, List.length_cons]

/-- Besides that handles are consistent: containers hold what they may hold, the pool has plain
data and arrays only, and the number of long-lived cells is right. -/
structure Proper (loose : Prop) (heap : Heap σ) : Prop extends Consistent heap where
  storable : ∀ {holder child}, child ∈ heap.children holder → Storable loose child
  pool : ∀ {value}, value.isScratch = true → heap.isLive value = true →
    (heap.payload value).isPlainData = true ∨ heap.kind value = .array
  live_eq : heap.live = heap.cellHandles.length

theorem cell?_new (config : Config) (value : Value) : (new config : Heap σ).cell? value = none := by
  cases value <;> rfl

theorem Proper.new (loose : Prop) (config : Config) : (new config : Heap σ).Proper loose where
  free_nodup := List.nodup_nil
  mem_free := fun index => by simp [Heap.new]
  serial_lt := fun index slot found => by simp [Heap.new] at found
  storable := fun {holder child} member => by
    rw [children, payload, cell?_new] at member
    contradiction
  pool := fun {value} _ live => by
    rw [isLive, cell?_new] at live
    contradiction
  live_eq := rfl

/-- A change of one cell in place that leaves its payload alone. -/
theorem Proper.modifyCell (proper : heap.Proper loose) (value : Value)
    {change : Cell σ → Cell σ} (same : ∀ cell, (change cell).payload = cell.payload) :
    (heap.modifyCell value change).Proper loose := by
  have payloads : ∀ other, (heap.modifyCell value change).payload other = heap.payload other := by
    intro other
    simp only [payload, cell?_modifyCell]
    by_cases changed : other = value
    · rw [if_pos changed]
      cases heap.cell? other with
      | none => rfl
      | some cell => exact same cell
    · rw [if_neg changed]
  refine ⟨proper.toConsistent.modifyCell value _, fun {holder child} member => ?_,
    fun {other} pooled live => ?_, ?_⟩
  · rw [children_of_payload_eq (payloads holder)] at member
    exact proper.storable member
  · rw [isLive_modifyCell] at live
    rw [kind, payloads]
    exact proper.pool pooled live
  · rw [length_cellHandles_congr fun other _ => isLive_modifyCell value other _, ← proper.live_eq]
    cases value <;> rfl

theorem Proper.setPayload (proper : heap.Proper loose) {target : Value} {payload : Payload σ}
    (sameKind : payload.kind = heap.kind target) (multi : payload.kind.isMulti = true)
    (storable : ∀ child ∈ payload.children,
      child ∈ heap.children target ∨ Storable loose child) :
    (heap.setPayload target payload).Proper loose := by
  refine ⟨proper.toConsistent.modifyCell target _, fun {holder child} member => ?_,
    fun {value} pooled live => ?_, ?_⟩
  · rw [children, payload_setPayload] at member
    split at member
    next => exact (storable child member).elim proper.storable id
    next => exact proper.storable member
  · rw [isLive_setPayload] at live
    rw [kind, payload_setPayload]
    split
    next both =>
      obtain ⟨rfl, -⟩ := both
      refine .inr (sameKind.trans ((proper.pool pooled live).resolve_left ?_))
      intro isPlain
      rw [sameKind, kind] at multi
      cases form : heap.payload value <;>
        simp_all [Payload.isPlainData, Payload.kind, Kind.isMulti]
    next => exact proper.pool pooled live
  · rw [length_cellHandles_congr fun other _ => isLive_setPayload target other _, ← proper.live_eq]
    cases target <;> rfl

theorem Proper.create (proper : heap.Proper loose) {payload : Payload σ}
    (storable : ∀ child ∈ payload.children, Storable loose child) :
    (heap.create payload).2.Proper loose := by
  have consistent := proper.toConsistent
  have fresh : heap.isLive (heap.create payload).1 = false := by
    apply eq_false_of_ne_true
    intro live
    exact not_issued_create consistent payload (consistent.issued live)
  refine ⟨consistent.create payload, fun {holder child} member => ?_,
    fun {value} pooled live => ?_, ?_⟩
  · by_cases isNew : holder = (heap.create payload).1
    · rw [children, isNew, payload_create_self consistent] at member
      exact storable child member
    · have same : (heap.create payload).2.cell? holder = heap.cell? holder := by
        rw [cell?_create consistent, if_neg isNew]
      rw [children_of_payload_eq (payload_eq_of_cell?_eq same)] at member
      exact proper.storable member
  · have old : value ≠ (heap.create payload).1 := by
      rintro rfl
      rw [isScratch_create] at pooled
      contradiction
    have same : (heap.create payload).2.cell? value = heap.cell? value := by
      rw [cell?_create consistent, if_neg old]
    rw [isLive_eq_of_cell?_eq same] at live
    rw [kind, payload_eq_of_cell?_eq same]
    exact proper.pool pooled live
  · rw [length_cellHandles_succ (isScratch_create payload) fresh fun value => by
      simp [isLive_create consistent], ← proper.live_eq]
    unfold Heap.create
    split <;> rfl

theorem Proper.createScratch (proper : heap.Proper loose) {payload : Payload σ}
    (childless : payload.children = [])
    (pooled : payload.isPlainData = true ∨ payload.kind = .array) :
    (heap.createScratch payload).2.Proper loose := by
  have new : (heap.createScratch payload).2.cell? (heap.createScratch payload).1 =
      some { payload } := by
    rw [cell?_createScratch, if_pos rfl]
  have others : ∀ {value}, value ≠ (heap.createScratch payload).1 →
      (heap.createScratch payload).2.cell? value = heap.cell? value := by
    intro value different
    rw [cell?_createScratch, if_neg different]
  refine ⟨proper.toConsistent.createScratch payload, fun {holder child} member => ?_,
    fun {value} isScratch live => ?_, ?_⟩
  · by_cases isNew : holder = (heap.createScratch payload).1
    · rw [children, isNew, payload_of_cell? new, childless] at member
      contradiction
    · rw [children_of_payload_eq (payload_eq_of_cell?_eq (others isNew))] at member
      exact proper.storable member
  · by_cases isNew : value = (heap.createScratch payload).1
    · rw [kind, isNew, payload_of_cell? new]
      exact pooled
    · rw [isLive_eq_of_cell?_eq (others isNew)] at live
      rw [kind, payload_eq_of_cell?_eq (others isNew)]
      exact proper.pool isScratch live
  · rw [length_cellHandles_congr fun value durable => isLive_eq_of_cell?_eq (others ?_),
      ← proper.live_eq]
    · rfl
    · rintro rfl
      contradiction

/-- A change by which cells are only given up. -/
theorem Proper.of_fewer (proper : heap.Proper loose) (consistent : heap'.Consistent)
    (same : ∀ {value}, heap'.isLive value = true → heap'.cell? value = heap.cell? value)
    (live_eq : heap'.live = heap'.cellHandles.length) : heap'.Proper loose := by
  refine ⟨consistent, fun {holder child} member => ?_, fun {value} pooled live => ?_, live_eq⟩
  · by_cases live : heap'.isLive holder = true
    · rw [children_of_payload_eq (payload_eq_of_cell?_eq (same live))] at member
      exact proper.storable member
    · rw [children_of_not_isLive (eq_false_of_ne_true live)] at member
      contradiction
  · have before : heap.isLive value = true := isLive_eq_of_cell?_eq (same live) ▸ live
    rw [kind, payload_eq_of_cell?_eq (same live)]
    exact proper.pool pooled before

theorem Proper.vacate (proper : heap.Proper loose) {index : Nat} {cell : Cell σ}
    (occupied : heap.occupant? index = some cell) : (heap.vacate index).Proper loose := by
  apply proper.of_fewer (proper.toConsistent.vacate occupied) cell?_vacate_of_isLive
  have found : heap.cell? (heap.occupantHandle index) = some cell := by
    rw [cell?_occupantHandle, occupied]
  have more : heap.cellHandles.length = (heap.vacate index).cellHandles.length + 1 := by
    apply length_cellHandles_succ (isScratch_occupantHandle index)
    · rw [isLive, cell?_vacate, if_pos rfl]
      rfl
    · intro value
      rw [isLive, isLive, cell?_vacate]
      by_cases gone : value = heap.occupantHandle index <;> simp [gone, found]
  show heap.live - 1 = _
  rw [proper.live_eq, more, Nat.add_sub_cancel]

theorem Proper.dropScratch (proper : heap.Proper loose) (mark : Nat) :
    (heap.dropScratch mark).Proper loose := by
  apply proper.of_fewer (proper.toConsistent.dropScratch mark)
    (cell?_dropScratch_of_isLive mark)
  rw [length_cellHandles_congr fun value durable =>
    isLive_eq_of_cell?_eq (cell?_dropScratch_of_not_isScratch mark durable), ← proper.live_eq]
  rfl

theorem Change.proper (change : Change loose floor heap made heap') (proper : heap.Proper loose) :
    heap'.Proper loose := by
  cases change with
  | create storable => exact proper.create storable
  | createScratch childless pooled => exact proper.createScratch childless pooled
  | retain value => exact proper.modifyCell value fun _ => rfl
  | release value => exact proper.modifyCell value fun _ => rfl
  | setPayload sameKind multi storable => exact proper.setPayload sameKind multi storable
  | vacate occupied => exact proper.vacate occupied
  | dropScratch => exact proper.dropScratch _
  | tune config cursor allocated =>
      have same : ∀ value,
          ({ heap with config, cursor, allocated } : Heap σ).cell? value = heap.cell? value := by
        intro value
        cases value <;> rfl
      have consistent : ({ heap with config, cursor, allocated } : Heap σ).Consistent :=
        ⟨proper.free_nodup, proper.mem_free, proper.serial_lt⟩
      exact proper.of_fewer consistent (fun _ => same _) proper.live_eq

theorem Trace.proper (trace : Trace loose floor first made heap) (proper : first.Proper loose) :
    heap.Proper loose := by
  induction trace with
  | refl => exact proper
  | step _ change inductionHypothesis => exact change.proper inductionHypothesis

end Heap

end CountedHeap
