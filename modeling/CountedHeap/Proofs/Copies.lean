import CountedHeap.Heap.Clone
import CountedHeap.Proofs.Steps
import CountedHeap.Rendering
import Mathlib.Logic.Relation

/-!
Contract: what a copy is, and what copying leaves alone.

`source` is the heap in which the copying began.  The cells that are walked are its cells, and
they never change meanwhile; the cells that are written are copies, which `source` has not
issued.  A container that has its shell but not yet its children is pending.

Owns:
- `CopyOf`, the relation between a value and its copy;
- `CopyState`, which holds whenever a value is about to be copied;
- `Clones`, that copying goes from one such state to the next and keeps what its changes keep;
- that copying is a step.
-/

namespace CountedHeap.Heap

variable {σ : Signature} {source heap heap' heap'' : Heap σ} {held : Multiset Value}
  {copies copies' : Copies} {pending : List Value}

/-- Whatever was issued names what it did. -/
structure Grows (heap heap' : Heap σ) : Prop where
  hashBuckets : heap'.config.hashBuckets = heap.config.hashBuckets
  issued : ∀ {value}, heap.Issued value → heap'.Issued value
  live : ∀ {value}, heap.Issued value → heap'.isLive value = heap.isLive value
  payload : ∀ {value}, heap.Issued value → heap'.payload value = heap.payload value

/-- How a value of `source` and its copy in `heap` are related.  A scratch value of the pool is
plain data or a container, so every value has a copy. -/
inductive CopyOf (source heap : Heap σ) (copies : Copies) : Value → Value → Prop
  | container {value copy} (entered : (value, copy) ∈ copies) :
      CopyOf source heap copies value copy
  | same {value} (durable : value.isScratch = false) (live : source.isLive value = true)
      (single : (source.kind value).isMulti = false) : CopyOf source heap copies value value
  | plain {value copy} (scratch : value.isScratch = true)
      (isPlain : (source.payload value).isPlainData = true)
      (fresh : ¬source.Issued copy) (durable : copy.isScratch = false)
      (payload : heap.payload copy = source.payload value) :
      CopyOf source heap copies value copy
  | absent {value} (stale : source.isLive value = false) :
      CopyOf source heap copies value .null

/-- The containers entered so far: each has one new copy, and each copy is of one container. -/
structure CopyMap (source : Heap σ) (copies : Copies) : Prop where
  multi : ∀ {key copy}, (key, copy) ∈ copies → (source.kind key).isMulti = true
  fresh : ∀ {key copy}, (key, copy) ∈ copies → ¬source.Issued copy
  durable : ∀ {key copy}, (key, copy) ∈ copies → copy.isScratch = false
  functional : ∀ {key copy copy'}, (key, copy) ∈ copies → (key, copy') ∈ copies → copy = copy'
  injective : ∀ {key key' copy}, (key, copy) ∈ copies → (key', copy) ∈ copies → key = key'

/-- The state of copying. -/
structure CopyState (source heap : Heap σ) (copies : Copies) (pending : List Value) : Prop
    extends Grows source heap, CopyMap source copies where
  pending_entered : ∀ {key}, key ∈ pending → ∃ copy, (key, copy) ∈ copies
  shell : ∀ {key copy}, (key, copy) ∈ copies → key ∈ pending →
    heap.payload copy = (source.payload key).withChildren []
  filled : ∀ {key copy}, (key, copy) ∈ copies → key ∉ pending → ∃ children,
    heap.payload copy = (source.payload key).withChildren children ∧
      List.Forall₂ (CopyOf source heap copies) (source.children key) children
  covered : ∀ {value}, ¬source.Issued value → (heap.kind value).isMulti = true →
    ∃ key, (key, value) ∈ copies

/-! ## Entering -/

/-- An entry is the new one, or it is an old one that shares neither side with it. -/
theorem mem_entered {value shell key copy : Value} (new : ∀ copy, (value, copy) ∉ copies)
    (unused : ∀ key, (key, shell) ∉ copies) (member : (key, copy) ∈ (value, shell) :: copies) :
    key = value ∧ copy = shell ∨ key ≠ value ∧ copy ≠ shell ∧ (key, copy) ∈ copies := by
  rcases List.mem_cons.mp member with equal | before
  · exact .inl ⟨congrArg Prod.fst equal, congrArg Prod.snd equal⟩
  · refine .inr ⟨?_, ?_, before⟩
    · rintro rfl
      exact new copy before
    · rintro rfl
      exact unused key before

theorem CopyMap.enter (map : CopyMap source copies) {value shell : Value}
    (multi : (source.kind value).isMulti = true) (fresh : ¬source.Issued shell)
    (durable : shell.isScratch = false) (new : ∀ copy, (value, copy) ∉ copies)
    (unused : ∀ key, (key, shell) ∉ copies) : CopyMap source ((value, shell) :: copies) where
  multi := fun member => by
    rcases mem_entered new unused member with ⟨rfl, -⟩ | ⟨-, -, before⟩
    · exact multi
    · exact map.multi before
  fresh := fun member => by
    rcases mem_entered new unused member with ⟨-, rfl⟩ | ⟨-, -, before⟩
    · exact fresh
    · exact map.fresh before
  durable := fun member => by
    rcases mem_entered new unused member with ⟨-, rfl⟩ | ⟨-, -, before⟩
    · exact durable
    · exact map.durable before
  functional := fun member member' => by
    rcases mem_entered new unused member with ⟨rfl, rfl⟩ | ⟨different, -, before⟩ <;>
      rcases mem_entered new unused member' with ⟨same, rfl⟩ | ⟨different', -, before'⟩
    · rfl
    · contradiction
    · contradiction
    · exact map.functional before before'
  injective := fun member member' => by
    rcases mem_entered new unused member with ⟨rfl, rfl⟩ | ⟨-, different, before⟩ <;>
      rcases mem_entered new unused member' with ⟨rfl, same⟩ | ⟨-, different', before'⟩
    · rfl
    · contradiction
    · contradiction
    · exact map.injective before before'

/-! ## Growth -/

theorem Grows.refl (heap : Heap σ) : Grows heap heap :=
  ⟨rfl, id, fun _ => rfl, fun _ => rfl⟩

theorem Grows.trans (first : Grows heap heap') (second : Grows heap' heap'') :
    Grows heap heap'' where
  hashBuckets := second.hashBuckets.trans first.hashBuckets
  issued := fun issued => second.issued (first.issued issued)
  live := fun issued => (second.live (first.issued issued)).trans (first.live issued)
  payload := fun issued => (second.payload (first.issued issued)).trans (first.payload issued)

theorem Grows.create (consistent : heap.Consistent) (payload : Payload σ) :
    Grows heap (heap.create payload).2 where
  hashBuckets := by rw [config_create]
  issued := Issued.create payload
  live := fun issued =>
    isLive_eq_of_cell?_eq (cell?_create_of_issued consistent payload issued)
  payload := fun issued =>
    payload_create_of_issued consistent payload issued

theorem Grows.retain (heap : Heap σ) (value : Value) : Grows heap (heap.retain value) where
  hashBuckets := by rw [Heap.retain, config_modifyCell]
  issued := (issued_retain value _).mpr
  live := fun _ => isLive_retain value _
  payload := fun _ => payload_retain heap value _

/-- What is written was issued since `heap`, so for `heap` nothing is written. -/
theorem Grows.setPayload (grows : Grows heap heap') {target : Value}
    (fresh : ¬heap.Issued target) (payload : Payload σ) :
    Grows heap (heap'.setPayload target payload) where
  hashBuckets := by rw [Heap.setPayload, config_modifyCell, grows.hashBuckets]
  issued := fun issued => (issued_setPayload _ _ _).mpr (grows.issued issued)
  live := fun issued => by rw [isLive_setPayload, grows.live issued]
  payload := fun {value} issued => by
    rw [payload_setPayload, if_neg, grows.payload issued]
    rintro ⟨rfl, -⟩
    exact fresh issued

/-- A way of copying that leaves alone whatever was issued. -/
def Growing (clone : Copies → Value → Heap σ → Value × Copies × Heap σ) : Prop :=
  ∀ copies value {heap : Heap σ}, heap.Consistent →
    (clone copies value heap).2.2.Consistent ∧ Grows heap (clone copies value heap).2.2

theorem Growing.cloneEach {clone : Copies → Value → Heap σ → Value × Copies × Heap σ}
    (growing : Growing clone) (copies : Copies) (values : List Value)
    (consistent : heap.Consistent) :
    (cloneEach clone copies values heap).2.2.Consistent ∧
      Grows heap (cloneEach clone copies values heap).2.2 := by
  induction values generalizing copies heap with
  | nil => exact ⟨consistent, .refl heap⟩
  | cons value rest inductionHypothesis =>
      obtain ⟨copied, first⟩ := growing copies value consistent
      obtain ⟨last, others⟩ := inductionHypothesis (clone copies value heap).2.1
        (copied.modifyCell (clone copies value heap).1 _)
      exact ⟨last, first.trans ((Grows.retain _ _).trans others)⟩

/-- No depth is asked for, and none of the handles need have been issued. -/
theorem growing_cloneWithin (depth : Nat) : Growing (@cloneWithin σ depth) := by
  induction depth with
  | zero => exact fun _ _ {heap} consistent => ⟨consistent, .refl heap⟩
  | succ depth inductionHypothesis =>
      intro copies value heap consistent
      have creating (payload : Payload σ) :
          (heap.create payload).2.Consistent ∧ Grows heap (heap.create payload).2 :=
        ⟨consistent.create payload, .create consistent payload⟩
      unfold cloneWithin
      split
      next => exact ⟨consistent, .refl heap⟩
      next =>
        split
        next => exact ⟨consistent, .refl heap⟩
        next cell found =>
          split
          next shell isMulti =>
            obtain ⟨made, making⟩ := creating shell
            obtain ⟨filled, filling⟩ := inductionHypothesis.cloneEach
              ((value, (heap.create shell).1) :: copies) cell.payload.children made
            refine ⟨filled.modifyCell _ _, ?_⟩
            simp only
            rw [setChildren_eq_setPayload]
            exact (making.trans filling).setPayload (not_issued_create consistent shell) _
          next =>
            split
            next =>
              split
              next => exact creating _
              next => exact ⟨consistent, .refl heap⟩
            next => exact ⟨consistent, .refl heap⟩

/-! ## Copies stay copies -/

theorem CopyOf.mono {value copy : Value} (copied : CopyOf source heap copies value copy)
    (plainKept : ∀ {other}, (heap.payload other).isPlainData = true →
      heap'.payload other = heap.payload other)
    (entered : ∀ {entry}, entry ∈ copies → entry ∈ copies') :
    CopyOf source heap' copies' value copy := by
  cases copied with
  | container isEntry => exact .container (entered isEntry)
  | same durable live single => exact .same durable live single
  | plain scratch isPlain fresh durable payload =>
      exact .plain scratch isPlain fresh durable ((plainKept (payload ▸ isPlain)).trans payload)
  | absent stale => exact .absent stale

theorem isMulti_of_isPlainData {payload : Payload σ} (isPlain : payload.isPlainData = true) :
    payload.kind.isMulti = false := by
  cases payload <;> simp_all [Payload.isPlainData, Payload.kind, Kind.isMulti]

theorem isLive_of_isPlainData {value : Value}
    (isPlain : (heap.payload value).isPlainData = true) : heap.isLive value = true :=
  isLive_of_payload_ne fun absent => by simp [absent, Payload.isPlainData] at isPlain

theorem Grows.plainKept (grows : Grows heap heap') (consistent : heap.Consistent)
    {value : Value} (isPlain : (heap.payload value).isPlainData = true) :
    heap'.payload value = heap.payload value :=
  grows.payload (consistent.issued (isLive_of_isPlainData isPlain))

theorem CopyState.kind_copy (state : CopyState source heap copies pending) {key copy : Value}
    (entered : (key, copy) ∈ copies) : heap.kind copy = source.kind key := by
  unfold kind
  by_cases isPending : key ∈ pending
  · rw [state.shell entered isPending, Payload.kind_withChildren]
  · obtain ⟨children, payload, -⟩ := state.filled entered isPending
    rw [payload, Payload.kind_withChildren]

theorem CopyState.issued_copy (state : CopyState source heap copies pending)
    (consistent : heap.Consistent) {key copy : Value} (entered : (key, copy) ∈ copies) :
    heap.Issued copy := by
  refine consistent.issued (isLive_of_isMulti ?_)
  rw [state.kind_copy entered]
  exact state.multi entered

theorem CopyState.issued_of_copyOf (state : CopyState source heap copies pending)
    (sourceConsistent : source.Consistent) (consistent : heap.Consistent) {value copy : Value}
    (copied : CopyOf source heap copies value copy) : heap.Issued copy := by
  cases copied with
  | container entered => exact state.issued_copy consistent entered
  | same durable live single => exact state.issued (sourceConsistent.issued live)
  | plain scratch isPlain fresh durable payload =>
      exact consistent.issued (isLive_of_isPlainData (payload ▸ isPlain))
  | absent stale => trivial

theorem CopyState.durable_of_copyOf (state : CopyState source heap copies pending)
    {value copy : Value} (copied : CopyOf source heap copies value copy) :
    copy.isScratch = false := by
  cases copied with
  | container entered => exact state.durable entered
  | same durable live single => exact durable
  | plain scratch isPlain fresh durable payload => exact durable
  | absent stale => rfl

/-! ## The states that copying goes through -/

theorem CopyState.start (consistent : source.Consistent) : CopyState source source [] [] where
  toGrows := .refl source
  toCopyMap := ⟨by simp, by simp, by simp, by simp, by simp⟩
  pending_entered := by simp
  shell := by simp
  filled := by simp
  covered := fun fresh multi => absurd (consistent.issued (isLive_of_isMulti multi)) fresh

/-- Changes that leave all payloads alone, and new cells that are no containers. -/
theorem CopyState.grow (state : CopyState source heap copies pending)
    (consistent : heap.Consistent) (grows : Grows heap heap')
    (single : ∀ {value}, ¬heap.Issued value → (heap'.kind value).isMulti = false) :
    CopyState source heap' copies pending where
  toGrows := state.toGrows.trans grows
  toCopyMap := state.toCopyMap
  pending_entered := state.pending_entered
  shell := fun entered isPending => by
    rw [grows.payload (state.issued_copy consistent entered), state.shell entered isPending]
  filled := fun entered notPending => by
    obtain ⟨children, payload, copied⟩ := state.filled entered notPending
    refine ⟨children, ?_, copied.imp fun _ _ copyOf => copyOf.mono (grows.plainKept consistent) id⟩
    rw [grows.payload (state.issued_copy consistent entered), payload]
  covered := fun {value} fresh multi => by
    by_cases issued : heap.Issued value
    · rw [kind, grows.payload issued] at multi
      exact state.covered fresh multi
    · rw [single issued] at multi
      contradiction

theorem CopyState.retain (state : CopyState source heap copies pending)
    (consistent : heap.Consistent) (value : Value) :
    CopyState source (heap.retain value) copies pending :=
  state.grow consistent (.retain heap value) fun {other} fresh => by
    refine eq_false_of_ne_true fun multi => fresh (consistent.issued ?_)
    rw [kind, payload_retain] at multi
    exact isLive_of_isMulti multi

/-- A new cell is not live before and is the only one that is new. -/
theorem kind_create_of_not_issued (consistent : heap.Consistent) {payload : Payload σ}
    {value : Value} (fresh : ¬heap.Issued value)
    (other : value ≠ (heap.create payload).1) :
    ((heap.create payload).2.kind value).isMulti = false := by
  have stale : heap.isLive value = false :=
    eq_false_of_ne_true fun live => fresh (consistent.issued live)
  have same : (heap.create payload).2.payload value = heap.payload value :=
    payload_eq_of_cell?_eq (by rw [cell?_create consistent, if_neg other])
  rw [kind, same, payload_of_not_isLive stale]
  rfl

theorem CopyState.createPlain (state : CopyState source heap copies pending)
    (consistent : heap.Consistent) {payload : Payload σ} (isPlain : payload.isPlainData = true) :
    CopyState source (heap.create payload).2 copies pending := by
  refine state.grow consistent (.create consistent payload) fun {value} fresh => ?_
  by_cases isNew : value = (heap.create payload).1
  · rw [isNew, kind, payload_create_self consistent payload]
    exact isMulti_of_isPlainData isPlain
  · exact kind_create_of_not_issued consistent fresh isNew

theorem children_shell (payload : Payload σ) : (payload.withChildren []).children = [] := by
  cases payload <;> rfl

/-- A container that has not been entered gets a shell and is pending. -/
theorem CopyState.enter (state : CopyState source heap copies pending)
    (consistent : heap.Consistent) {value shell : Value} {made : Heap σ}
    (multi : (source.kind value).isMulti = true) (new : ∀ copy, (value, copy) ∉ copies)
    (create : heap.create ((source.payload value).withChildren []) = (shell, made)) :
    CopyState source made ((value, shell) :: copies) (value :: pending) := by
  obtain rfl : (heap.create ((source.payload value).withChildren [])).1 = shell :=
    congrArg Prod.fst create
  obtain rfl : (heap.create ((source.payload value).withChildren [])).2 = made :=
    congrArg Prod.snd create
  have grows := Grows.create consistent ((source.payload value).withChildren [])
  have unissued := not_issued_create consistent ((source.payload value).withChildren [])
  have unused : ∀ key,
      (key, (heap.create ((source.payload value).withChildren [])).1) ∉ copies :=
    fun key before => unissued (state.issued_copy consistent before)
  refine { toGrows := state.toGrows.trans grows
           toCopyMap := state.toCopyMap.enter multi (fun issued => unissued (state.issued issued))
             (isScratch_create _) new unused
           pending_entered := fun {key} member => ?_
           shell := fun {key copy} member isPending => ?_
           filled := fun {key copy} member notPending => ?_
           covered := fun {other} fresh otherMulti => ?_ }
  · rcases List.mem_cons.mp member with rfl | before
    · exact ⟨_, List.mem_cons_self⟩
    · obtain ⟨copy, entered⟩ := state.pending_entered before
      exact ⟨copy, List.mem_cons_of_mem _ entered⟩
  · rcases mem_entered new unused member with ⟨rfl, rfl⟩ | ⟨different, -, before⟩
    · exact payload_create_self consistent _
    · rw [grows.payload (state.issued_copy consistent before)]
      exact state.shell before (List.mem_of_ne_of_mem different isPending)
  · rcases mem_entered new unused member with ⟨rfl, -⟩ | ⟨-, -, before⟩
    · exact absurd List.mem_cons_self notPending
    · obtain ⟨children, payload, copied⟩ := state.filled before
        (fun isPending => notPending (List.mem_cons_of_mem _ isPending))
      refine ⟨children, ?_, copied.imp fun _ _ copyOf =>
        copyOf.mono (grows.plainKept consistent) (List.mem_cons_of_mem _)⟩
      rw [grows.payload (state.issued_copy consistent before), payload]
  · by_cases isNew : other = (heap.create ((source.payload value).withChildren [])).1
    · exact ⟨value, isNew ▸ List.mem_cons_self⟩
    · by_cases issued : heap.Issued other
      · rw [kind, grows.payload issued] at otherMulti
        obtain ⟨key, entered⟩ := state.covered fresh otherMulti
        exact ⟨key, List.mem_cons_of_mem _ entered⟩
      · rw [kind_create_of_not_issued consistent issued isNew] at otherMulti
        contradiction

/-- The copy of a pending container is a container without children. -/
theorem CopyState.pending_copy (state : CopyState source heap copies pending) {value copy : Value}
    (entered : (value, copy) ∈ copies) (isPending : value ∈ pending) :
    (heap.payload copy).kind.isMulti = true ∧ heap.children copy = [] := by
  have sameKind := state.kind_copy entered
  rw [kind] at sameKind
  rw [sameKind, Heap.children, state.shell entered isPending, children_shell]
  exact ⟨state.multi entered, rfl⟩

/-- The shell of a pending container gets its children, and is pending no longer. -/
theorem CopyState.fill {value copy : Value} {children : List Value}
    (state : CopyState source heap copies (value :: pending)) (entered : (value, copy) ∈ copies)
    (notPending : value ∉ pending)
    (copied : List.Forall₂ (CopyOf source heap copies) (source.children value) children) :
    CopyState source (heap.setChildren copy children) copies pending := by
  have shell := state.shell entered List.mem_cons_self
  have content : (heap.payload copy).withChildren children =
      (source.payload value).withChildren children := by
    rw [shell]
    cases source.payload value <;> rfl
  have live : heap.isLive copy = true :=
    isLive_of_isMulti (by rw [state.kind_copy entered]; exact state.multi entered)
  rw [setChildren_eq_setPayload, content]
  have others : ∀ {other}, other ≠ copy →
      (heap.setPayload copy ((source.payload value).withChildren children)).payload other =
        heap.payload other := fun different => by
    rw [payload_setPayload, if_neg fun both => different both.1]
  have written : (heap.setPayload copy
      ((source.payload value).withChildren children)).payload copy =
        (source.payload value).withChildren children := by
    rw [payload_setPayload, if_pos ⟨rfl, live⟩]
  have plainKept : ∀ {other}, (heap.payload other).isPlainData = true →
      (heap.setPayload copy ((source.payload value).withChildren children)).payload other =
        heap.payload other := by
    intro other isPlain
    refine others ?_
    rintro rfl
    have multi := state.multi entered
    rw [← state.kind_copy entered, kind, isMulti_of_isPlainData isPlain] at multi
    contradiction
  refine { toGrows := state.toGrows.setPayload (state.fresh entered) _
           toCopyMap := state.toCopyMap
           pending_entered := fun member => state.pending_entered (List.mem_cons_of_mem _ member)
           shell := fun {key other} isEntry isPending => ?_
           filled := fun {key other} isEntry filled => ?_
           covered := fun {other} fresh multi => ?_ }
  · have different : other ≠ copy := by
      rintro rfl
      exact notPending (state.injective entered isEntry ▸ isPending)
    rw [others different]
    exact state.shell isEntry (List.mem_cons_of_mem _ isPending)
  · by_cases same : key = value
    · subst same
      rw [state.functional isEntry entered, written]
      exact ⟨children, rfl, copied.imp fun _ _ copyOf => copyOf.mono plainKept id⟩
    · have different : other ≠ copy := by
        rintro rfl
        exact same (state.injective isEntry entered)
      obtain ⟨otherChildren, payload, otherCopied⟩ :=
        state.filled isEntry (by simp [same, filled])
      exact ⟨otherChildren, (others different).trans payload,
        otherCopied.imp fun _ _ copyOf => copyOf.mono plainKept id⟩
  · by_cases same : other = copy
    · exact ⟨value, same ▸ entered⟩
    · rw [kind, others same] at multi
      exact state.covered fresh multi

/-! ## Copies of tables -/

theorem exists_of_forall₂ {α β : Type} {relation : α → β → Prop} {list : List α}
    {list' : List β} (related : List.Forall₂ relation list list') {place : Nat} {image : β}
    (found : list'[place]? = some image) :
    ∃ origin, list[place]? = some origin ∧ relation origin image := by
  obtain ⟨inside, rfl⟩ := List.getElem?_eq_some_iff.mp found
  have before : place < list.length := related.length_eq ▸ inside
  exact ⟨list[place], List.getElem?_eq_getElem before, related.get before inside⟩

theorem exists_mem_of_forall₂ {α β : Type} {relation : α → β → Prop} {list : List α}
    {list' : List β} (related : List.Forall₂ relation list list') {image : β}
    (member : image ∈ list') : ∃ origin ∈ list, relation origin image := by
  obtain ⟨place, found⟩ := List.mem_iff_getElem?.mp member
  obtain ⟨origin, originFound, copied⟩ := exists_of_forall₂ related found
  exact ⟨origin, List.mem_of_getElem? originFound, copied⟩

/-- The copy of an absent bucket is absent, and that of an array is an array of its own. -/
theorem CopyState.bucket (state : CopyState source heap copies pending)
    (shaped : source.Shaped) {table bucket copy : Value}
    {content : HashTable} (found : source.table? table = some content)
    (member : bucket ∈ content.buckets) (copied : CopyOf source heap copies bucket copy) :
    bucket = .null ∧ copy = .null ∨ source.kind bucket = .array ∧ (bucket, copy) ∈ copies := by
  have durable : bucket.isScratch = false :=
    shaped.durable (by rwa [children_of_table? found] : bucket ∈ source.children table)
  rcases (shaped.tables found).array member with rfl | isArray
  · cases copied with
    | container entered =>
        have multi := state.multi entered
        rw [kind_null] at multi
        contradiction
    | same durable live single => exact .inl ⟨rfl, rfl⟩
    | plain scratch isPlain fresh durable payload => exact absurd scratch (by decide)
    | absent stale => exact .inl ⟨rfl, rfl⟩
  · have live : source.isLive bucket = true := isLive_of_kind_ne (by rw [isArray]; decide)
    cases copied with
    | container entered => exact .inr ⟨isArray, entered⟩
    | same durable live single => simp [isArray, Kind.isMulti] at single
    | plain scratch isPlain fresh durable payload => exact absurd scratch (by simp_all)
    | absent stale => exact absurd live (by simp [stale])

/-- A table that the copying made is the copy of a table. -/
theorem CopyState.table (state : CopyState source heap copies pending) {table : Value}
    {content : HashTable} (fresh : ¬source.Issued table)
    (found : heap.table? table = some content) :
    ∃ key original, (key, table) ∈ copies ∧ source.table? key = some original ∧
      content.pairs = original.pairs ∧
      (key ∈ pending ∧ content.buckets = [] ∨
        List.Forall₂ (CopyOf source heap copies) original.buckets content.buckets) := by
  have isHash := kind_of_table? found
  obtain ⟨key, entered⟩ := state.covered fresh (by rw [isHash]; rfl)
  have keyHash : source.kind key = .hash := by rw [← state.kind_copy entered, isHash]
  obtain ⟨original, payload⟩ : ∃ original, source.payload key = .hash original := by
    unfold kind at keyHash
    cases form : source.payload key <;> simp_all [Payload.kind]
  rw [table?_eq_some_iff] at found
  refine ⟨key, original, entered, table?_eq_some_iff.mpr payload, ?_⟩
  by_cases isPending : key ∈ pending
  · have shell := state.shell entered isPending
    rw [found, payload] at shell
    obtain rfl : content = { original with buckets := [] } := Payload.hash.inj shell
    exact ⟨rfl, .inl ⟨isPending, rfl⟩⟩
  · obtain ⟨children, filled, copied⟩ := state.filled entered isPending
    rw [found, payload] at filled
    obtain rfl : content = { original with buckets := children } := Payload.hash.inj filled
    rw [Heap.children, payload] at copied
    exact ⟨rfl, .inr copied⟩

/-- The copy of a table owns the copies of the buckets. -/
theorem CopyState.ownsBuckets {value copy : Value} {content : HashTable}
    {children : List Value} (state : CopyState source heap copies pending)
    {sourceHeld : Multiset Value} (sound : source.Sound sourceHeld)
    (entered : (value, copy) ∈ copies) (found : source.table? value = some content)
    (copied : List.Forall₂ (CopyOf source heap copies) content.buckets children) :
    heap.OwnsBuckets copy { content with buckets := children } := by
  have owns := sound.tables found
  have origin : ∀ {bucket}, bucket ∈ children → bucket ≠ .null →
      ∃ original ∈ content.buckets, source.kind original = .array ∧
        (original, bucket) ∈ copies := by
    intro bucket member present
    obtain ⟨original, inside, copyOf⟩ := exists_mem_of_forall₂ copied member
    rcases state.bucket sound.toShaped found inside copyOf with ⟨-, absent⟩ | ⟨isArray, isEntry⟩
    · exact absurd absent present
    · exact ⟨original, inside, isArray, isEntry⟩
  refine ⟨fun {bucket} member => ?_, fun {bucket place other} first second present => ?_,
    fun {bucket other otherContent} different otherFound member otherMember => ?_⟩
  · by_cases absent : bucket = .null
    · exact .inl absent
    · obtain ⟨original, -, isArray, isEntry⟩ := origin member absent
      exact .inr ((state.kind_copy isEntry).trans isArray)
  · obtain ⟨original, originalFound, copyOf⟩ := exists_of_forall₂ copied first
    obtain ⟨original', originalFound', copyOf'⟩ := exists_of_forall₂ copied second
    rcases state.bucket sound.toShaped found (List.mem_of_getElem? originalFound) copyOf with
      ⟨-, absent⟩ | ⟨isArray, isEntry⟩
    · exact absurd absent present
    · rcases state.bucket sound.toShaped found (List.mem_of_getElem? originalFound') copyOf' with
        ⟨-, absent⟩ | ⟨-, isEntry'⟩
      · exact absurd absent present
      · obtain rfl := state.injective isEntry isEntry'
        refine owns.distinct originalFound originalFound' ?_
        rintro rfl
        simp [kind_null] at isArray
  · by_contra present
    obtain ⟨original, inside, isArray, isEntry⟩ := origin member present
    by_cases otherIssued : source.Issued other
    · -- The buckets of an old table are old, and copies are not.
      rw [table?_eq_some_iff, state.payload otherIssued, ← table?_eq_some_iff] at otherFound
      exact state.fresh isEntry (sound.issued_bucket otherFound otherMember)
    · obtain ⟨key, keyContent, keyEntered, keyFound, -, isPending | otherCopied⟩ :=
        state.table otherIssued otherFound
      · simp [isPending.2] at otherMember
      · obtain ⟨original', inside', copyOf'⟩ := exists_mem_of_forall₂ otherCopied otherMember
        rcases state.bucket sound.toShaped keyFound inside' copyOf' with
          ⟨-, absent⟩ | ⟨-, isEntry'⟩
        · exact present absent
        · obtain rfl := state.injective isEntry isEntry'
          have keyDifferent : key ≠ value := by
            rintro rfl
            exact different (state.functional keyEntered entered)
          have absent := owns.alone keyDifferent keyFound inside inside'
          rw [absent, kind_null] at isArray
          contradiction

/-! ## What lies below a value -/

/-- What has children is a container. -/
theorem isMulti_of_mem_children {holder child : Value} (member : child ∈ heap.children holder) :
    (heap.kind holder).isMulti = true := by
  unfold children at member
  unfold kind
  cases form : heap.payload holder <;> simp_all [Payload.children, Payload.kind, Kind.isMulti]

/-- What can be reached from a value through references, the value itself included. -/
def Below (heap : Heap σ) : Value → Value → Prop :=
  Relation.ReflTransGen fun holder child => child ∈ heap.children holder

/-- What has no children leads to itself only. -/
theorem Below.eq_of_children_nil {value other : Value} (below : heap.Below value other)
    (none : heap.children value = []) : other = value := by
  rcases Relation.ReflTransGen.cases_head below with rfl | ⟨child, member, -⟩
  · rfl
  · rw [none] at member
    contradiction

/-- No handle below the value was foretold: it was issued, or it names nothing later either. -/
def Settled (source later : Heap σ) (value : Value) : Prop :=
  ∀ other, source.Below value other → source.Issued other ∨ later.isLive other = false

theorem Settled.child {value child : Value} (settled : source.Settled heap value)
    (member : child ∈ source.children value) : source.Settled heap child :=
  fun other below => settled other (.head member below)

/-- What is not foretold for a later heap is not foretold for an earlier one. -/
theorem Settled.earlier {value : Value} (settled : source.Settled heap' value)
    (consistent : heap.Consistent) (grows : Grows heap heap') : source.Settled heap value := by
  intro other below
  apply (settled other below).imp_right
  intro absent
  apply eq_false_of_ne_true
  intro live
  rw [grows.live (consistent.issued live), live] at absent
  contradiction

theorem Settled.of_isLive_eq {value : Value} (settled : source.Settled heap' value)
    (same : ∀ other, heap'.isLive other = heap.isLive other) : source.Settled heap value := by
  intro other below
  rw [← same]
  exact settled other below

/-! ## The run -/

/-- A property that the changes of a copying keep.  Its second argument has the copies that are
made and not yet stored. -/
structure Keeping (source : Heap σ) (keeps : Heap σ → Multiset Value → Prop) : Prop where
  consistent : ∀ {heap held}, keeps heap held → heap.Consistent
  retain : ∀ {heap held value}, keeps heap held → heap.Issued value →
    keeps (heap.retain value) (value ::ₘ held)
  create : ∀ {heap held payload}, keeps heap held → payload.children = [] →
    keeps (heap.create payload).2 held
  fill : ∀ {heap held copies pending value copy children},
    CopyState source heap copies (value :: pending) → (value, copy) ∈ copies →
    List.Forall₂ (CopyOf source heap copies) (source.children value) children →
    keeps heap (held + ↑children) → keeps (heap.setChildren copy children) held

section Run

variable {keeps : Heap σ → Multiset Value → Prop}

/-- From one state of copying to another. -/
structure CopyRun (keeps : Heap σ → Multiset Value → Prop) (source heap heap' : Heap σ)
    (copies copies' : Copies) (pending : List Value) (held : Multiset Value)
    (values : List Value) : Prop where
  state : CopyState source heap' copies' pending
  kept : keeps heap' held
  grows : Grows heap heap'
  entered : ∀ {entry}, entry ∈ copies → entry ∈ copies'
  below : ∀ {key copy}, (key, copy) ∈ copies' →
    (key, copy) ∈ copies ∨ ∃ value ∈ values, source.Below value key

/-- Where nothing happened. -/
theorem CopyRun.refl (state : CopyState source heap copies pending) (kept : keeps heap held)
    (values : List Value) : CopyRun keeps source heap heap copies copies pending held values :=
  ⟨state, kept, .refl heap, id, .inl⟩

/-- How many containers of `source` may still be copied. -/
def uncopied (source : Heap σ) (copies : Copies) : Nat :=
  source.unentered (copies.map (·.1))

theorem uncopied_le (entered : ∀ {entry}, entry ∈ copies → entry ∈ copies') :
    source.uncopied copies' ≤ source.uncopied copies := by
  refine List.Sublist.length_le (List.monotone_filter_right _ fun value outside => ?_)
  simp only [decide_eq_true_eq, List.mem_map, not_exists, not_and] at outside ⊢
  exact fun entry member => outside entry (entered member)

/-- A value below which nothing is foretold is copied, as long as the depth allows for every
container that is left. -/
def Clones (keeps : Heap σ → Multiset Value → Prop) (source : Heap σ) (depth : Nat)
    (clone : Copies → Value → Heap σ → Value × Copies × Heap σ) : Prop :=
  ∀ {copies : Copies} {value : Value} {heap : Heap σ} {held : Multiset Value}
    {pending : List Value}, CopyState source heap copies pending → keeps heap held →
    source.Settled (clone copies value heap).2.2 value → source.uncopied copies < depth →
      CopyRun keeps source heap (clone copies value heap).2.2 copies
          (clone copies value heap).2.1 pending held [value] ∧
        CopyOf source (clone copies value heap).2.2 (clone copies value heap).2.1 value
          (clone copies value heap).1

/-- Each value is copied and its copy retained. -/
theorem Clones.cloneEach (keeping : Keeping source keeps) (sourceConsistent : source.Consistent)
    {depth : Nat} {clone : Copies → Value → Heap σ → Value × Copies × Heap σ}
    (growing : Growing clone) (clones : Clones keeps source depth clone) {values : List Value}
    (settled : ∀ value ∈ values,
      source.Settled (cloneEach clone copies values heap).2.2 value)
    (state : CopyState source heap copies pending) (kept : keeps heap held)
    (enough : source.uncopied copies < depth) :
    CopyRun keeps source heap (cloneEach clone copies values heap).2.2 copies
        (cloneEach clone copies values heap).2.1 pending
        (held + ↑(cloneEach clone copies values heap).1) values ∧
      List.Forall₂
        (CopyOf source (cloneEach clone copies values heap).2.2
          (cloneEach clone copies values heap).2.1)
        values (cloneEach clone copies values heap).1 := by
  induction values generalizing copies heap held with
  | nil => exact ⟨.refl state (by simpa [Heap.cloneEach] using kept) [], .nil⟩
  | cons value rest inductionHypothesis =>
      obtain ⟨valueSettled, restSettled⟩ := List.forall_mem_cons.mp settled
      have made := growing copies value (keeping.consistent kept)
      have onward : Grows (clone copies value heap).2.2
          (Heap.cloneEach clone copies (value :: rest) heap).2.2 :=
        (Grows.retain _ _).trans (growing.cloneEach _ rest (made.1.modifyCell _ _)).2
      obtain ⟨first, copied⟩ :=
        clones state kept (valueSettled.earlier made.1 onward) enough
      simp only [Heap.cloneEach] at restSettled ⊢
      revert first copied restSettled
      generalize clone copies value heap = result
      obtain ⟨copy, copies₁, heap₁⟩ := result
      intro restSettled first copied
      have consistent := keeping.consistent first.kept
      have copyIssued := first.state.issued_of_copyOf sourceConsistent consistent copied
      obtain ⟨others, othersCopied⟩ := inductionHypothesis restSettled
        (first.state.retain consistent copy) (keeping.retain first.kept copyIssued)
        (lt_of_le_of_lt (uncopied_le first.entered) enough)
      revert others othersCopied
      generalize Heap.cloneEach clone copies₁ rest (heap₁.retain copy) = result
      obtain ⟨rests, copies₂, heap₂⟩ := result
      intro others othersCopied
      have grows := (Grows.retain heap₁ copy).trans others.grows
      refine ⟨⟨others.state, ?_, first.grows.trans grows,
        fun member => others.entered (first.entered member), fun member => ?_⟩,
        .cons ?_ othersCopied⟩
      · have accounts : held + ↑(copy :: rests) = copy ::ₘ held + ↑rests := by
          rw [← Multiset.cons_coe, Multiset.add_cons, Multiset.cons_add]
        rw [accounts]
        exact others.kept
      · rcases others.below member with before | ⟨root, inside, below⟩
        · exact (first.below before).imp_right fun ⟨root, inside, below⟩ =>
            ⟨root, List.mem_singleton.mp inside ▸ List.mem_cons_self, below⟩
        · exact .inr ⟨root, List.mem_cons_of_mem _ inside, below⟩
      · exact copied.mono (grows.plainKept consistent) others.entered

/-- Entering a container leaves fewer to copy. -/
theorem uncopied_cons_lt {value : Value} (multi : (source.kind value).isMulti = true)
    (new : ∀ copy, (value, copy) ∉ copies) (shell : Value) :
    source.uncopied ((value, shell) :: copies) < source.uncopied copies := by
  obtain ⟨cell, found⟩ := isLive_iff.mp (isLive_of_isMulti multi)
  refine unentered_cons_lt found fun member => ?_
  obtain ⟨⟨key, copy⟩, entered, rfl⟩ := List.mem_map.mp member
  exact new copy entered

/-- A new container is entered with its shell, its children are copied, and the copies become
the children of the shell. -/
theorem Clones.container (keeping : Keeping source keeps) (sourceConsistent : source.Consistent)
    {depth : Nat} {clone : Copies → Value → Heap σ → Value × Copies × Heap σ}
    (growing : Growing clone) (clones : Clones keeps source depth clone)
    (state : CopyState source heap copies pending) (kept : keeps heap held) {value : Value}
    (multi : (source.kind value).isMulti = true) (new : ∀ copy, (value, copy) ∉ copies)
    (enough : source.uncopied copies < depth + 1) {shell : Value} {made : Heap σ}
    (create : heap.create ((source.payload value).withChildren []) = (shell, made))
    {children : List Value}
    (each : Heap.cloneEach clone ((value, shell) :: copies) (source.children value) made =
      (children, copies', heap'))
    (settled : source.Settled (heap'.setChildren shell children) value) :
    CopyRun keeps source heap (heap'.setChildren shell children) copies copies' pending held
        [value] ∧
      CopyOf source (heap'.setChildren shell children) copies' value shell := by
  have consistent := keeping.consistent kept
  have emptied := children_shell (source.payload value)
  have stateMade := state.enter consistent multi new create
  obtain ⟨unissued, growsMade, keptMade⟩ :
      ¬heap.Issued shell ∧ Grows heap made ∧ keeps made held := by
    obtain rfl : (heap.create ((source.payload value).withChildren [])).1 = shell :=
      congrArg Prod.fst create
    obtain rfl : (heap.create ((source.payload value).withChildren [])).2 = made :=
      congrArg Prod.snd create
    exact ⟨not_issued_create consistent _, .create consistent _, keeping.create kept emptied⟩
  have fewer := uncopied_cons_lt multi new shell
  have childSettled : ∀ child ∈ source.children value, source.Settled
      (Heap.cloneEach clone ((value, shell) :: copies) (source.children value) made).2.2
      child := by
    intro child member
    rw [each]
    apply (settled.child member).of_isLive_eq
    intro other
    rw [setChildren_eq_setPayload, isLive_setPayload]
  obtain ⟨run, copied⟩ := clones.cloneEach keeping sourceConsistent growing childSettled
    stateMade keptMade (by omega)
  rw [each] at run copied
  have entered : (value, shell) ∈ copies' := run.entered List.mem_cons_self
  have notPending : value ∉ pending := fun isPending => by
    obtain ⟨copy, isEntry⟩ := state.pending_entered isPending
    exact new copy isEntry
  refine ⟨⟨run.state.fill entered notPending copied, keeping.fill run.state entered copied
    run.kept, ?_, fun member => run.entered (List.mem_cons_of_mem _ member), fun member => ?_⟩,
    .container entered⟩
  · rw [setChildren_eq_setPayload]
    exact (growsMade.trans run.grows).setPayload unissued _
  · rcases run.below member with before | ⟨child, inside, below⟩
    · rcases List.mem_cons.mp before with isValue | early
      · obtain ⟨rfl, -⟩ := Prod.mk.inj isValue
        exact .inr ⟨_, List.mem_cons_self, .refl⟩
      · exact .inl early
    · exact .inr ⟨value, List.mem_cons_self, .head inside below⟩

/-- Plain data of the pool gets a cell of its own. -/
theorem CopyState.copyPlain (keeping : Keeping source keeps)
    (state : CopyState source heap copies pending) (kept : keeps heap held) {value : Value}
    (scratch : value.isScratch = true) (isPlain : (source.payload value).isPlainData = true) :
    CopyRun keeps source heap (heap.create (source.payload value)).2 copies copies pending held
        [value] ∧
      CopyOf source (heap.create (source.payload value)).2 copies value
        (heap.create (source.payload value)).1 := by
  have consistent := keeping.consistent kept
  have childless : (source.payload value).children = [] := by
    cases form : source.payload value <;> simp_all [Payload.isPlainData, Payload.children]
  have fresh : ¬source.Issued (heap.create (source.payload value)).1 := fun issued =>
    not_issued_create consistent _ (state.issued issued)
  exact ⟨⟨state.createPlain consistent isPlain, keeping.create kept childless,
    .create consistent _, id, .inl⟩,
    .plain scratch isPlain fresh (isScratch_create _) (payload_create_self consistent _)⟩

/-- The pool has plain data and arrays only, so every single scratch value has a copy. -/
theorem clones_cloneWithin (keeping : Keeping source keeps) (sourceConsistent : source.Consistent)
    (pool : ∀ {value}, value.isScratch = true → source.isLive value = true →
      (source.payload value).isPlainData = true ∨ source.kind value = .array)
    (depth : Nat) : Clones keeps source depth (cloneWithin depth) := by
  induction depth with
  | zero => exact fun _ _ _ enough => absurd enough (Nat.not_lt_zero _)
  | succ depth inductionHypothesis =>
      intro copies value heap held pending state kept settled enough
      have consistent := keeping.consistent kept
      have grows := (growing_cloneWithin (depth + 1) copies value consistent).2
      have issuedOfLive : heap.isLive value = true → source.Issued value := by
        intro live
        apply (settled value .refl).resolve_right
        rw [grows.live (consistent.issued live), live]
        exact nofun
      clear grows
      revert settled
      rw [cloneWithin]
      split
      next copy found =>
        intro settled
        obtain ⟨before, after, rfl, -⟩ := List.lookup_eq_some_iff.mp found
        exact ⟨.refl state kept _, .container (by simp)⟩
      next missing =>
        have new : ∀ copy, (value, copy) ∉ copies := fun copy member => by
          simpa using List.lookup_eq_none_iff.mp missing _ member
        split
        next absent =>
          intro settled
          refine ⟨.refl state kept _, .absent ?_⟩
          apply eq_false_of_ne_true
          intro live
          rw [← state.live (sourceConsistent.issued live), isLive, absent] at live
          contradiction
        next cell found =>
          have issued := issuedOfLive (isLive_of_cell? found)
          have payload : cell.payload = source.payload value := by
            rw [← state.payload issued, payload_of_cell? found]
          have live : source.isLive value = true := by
            rw [← state.live issued]
            exact isLive_of_cell? found
          rw [payload]
          split
          next shell isMulti =>
            obtain ⟨multi, rfl⟩ := Payload.shell?_eq_some_iff.mp isMulti
            exact inductionHypothesis.container keeping sourceConsistent
              (growing_cloneWithin depth) state kept multi new enough rfl rfl
          next isSingle =>
            have single : (source.kind value).isMulti = false :=
              Payload.shell?_eq_none_iff.mp isSingle
            split
            next scratch =>
              have isPlain : (source.payload value).isPlainData = true := by
                refine (pool scratch live).resolve_right fun isArray => ?_
                simp [isArray, Kind.isMulti] at single
              rw [if_pos isPlain]
              exact fun _ => state.copyPlain keeping kept scratch isPlain
            next durable =>
              exact fun _ => ⟨.refl state kept _, .same (by simpa using durable) live single⟩

end Run

/-! ## The invariant of heaps -/

/-- The references that held the copies of the children are those in the container. -/
theorem CopyState.sound_fill {value copy : Value} {children : List Value}
    {sourceHeld : Multiset Value} (state : CopyState source heap copies (value :: pending))
    (sourceSound : source.Sound sourceHeld) (sound : heap.Sound (held + ↑children))
    (entered : (value, copy) ∈ copies)
    (copied : List.Forall₂ (CopyOf source heap copies) (source.children value) children) :
    (heap.setChildren copy children).Sound held := by
  have shell := state.shell entered List.mem_cons_self
  obtain ⟨multi, childless⟩ := state.pending_copy entered List.mem_cons_self
  have newChildren : ((heap.payload copy).withChildren children).children = children :=
    Payload.children_withChildren_of_isMulti multi children
  rw [setChildren_eq_setPayload]
  refine sound.setPayload (isLive_of_isMulti multi) (Payload.kind_withChildren children _) ?_ ?_
    (fun child member => .inr ?_) (fun content isHash => ?_)
  · rwa [Payload.kind_withChildren]
  · rw [newChildren, childless]
    exact add_zero _
  · rw [newChildren] at member
    obtain ⟨original, -, copyOf⟩ := exists_mem_of_forall₂ copied member
    exact state.durable_of_copyOf copyOf
  · rw [shell] at isHash
    obtain ⟨original, payload⟩ : ∃ original, source.payload value = .hash original := by
      cases form : source.payload value <;> simp_all [Payload.withChildren]
    rw [payload] at isHash
    rw [Heap.children, payload] at copied
    obtain rfl := Payload.hash.inj isHash
    have owns := state.ownsBuckets sourceSound entered (table?_eq_some_iff.mpr payload) copied
    exact owns

theorem Sound.keeping {sourceHeld : Multiset Value} (sourceSound : source.Sound sourceHeld) :
    Keeping source Heap.Sound where
  consistent := Sound.toConsistent
  retain := fun sound issued => sound.retain issued
  create := fun sound childless =>
    .create (by simpa [childless] using sound) (by simp [childless]) fun content isHash => by
      simpa [isHash, Payload.children] using childless
  fill := fun state entered copied sound => state.sound_fill sourceSound sound entered copied

/-- In a heap that keeps the invariant every handle below an issued one was issued. -/
theorem Sound.issued_below (sound : heap.Sound held) {value other : Value}
    (issued : heap.Issued value) (below : heap.Below value other) : heap.Issued other := by
  induction below with
  | refl => exact issued
  | tail _ member _ => exact sound.issued_child member

/-! ## Copying as a step -/

/-- The depth allowed is enough for all containers of the heap. -/
theorem uncopied_lt_cloneDepth (heap : Heap σ) : heap.uncopied [] < heap.cloneDepth := by
  have fewer : heap.uncopied [] ≤ heap.handles.length := List.length_filter_le _ _
  have power : heap.handles.length + heap.references.length + 1 < heap.cloneDepth :=
    Nat.lt_two_pow_self
  omega

/-- Copying is copying below a depth that is enough for all containers of the heap. -/
theorem exists_clone_eq (heap : Heap σ) (value : Value) : ∃ depth,
    heap.uncopied [] < depth + 1 ∧
      heap.clone value = ((cloneWithin (depth + 1) [] value heap).1,
        (cloneWithin (depth + 1) [] value heap).2.2) := by
  have enough := heap.uncopied_lt_cloneDepth
  obtain ⟨depth, deep⟩ : ∃ depth, heap.cloneDepth = depth + 1 :=
    Nat.exists_eq_succ_of_ne_zero (Nat.ne_of_gt (Nat.zero_lt_of_lt enough))
  rw [deep] at enough
  refine ⟨depth, enough, ?_⟩
  rw [clone, deep]

/-- What names nothing is copied as the absent value. -/
theorem clone_of_not_isLive {value : Value} (stale : heap.isLive value = false) :
    heap.clone value = (.null, heap) := by
  have absent : heap.cell? value = none := by simpa [isLive] using stale
  obtain ⟨depth, -, copying⟩ := heap.exists_clone_eq value
  simp [copying, cloneWithin, absent]

theorem Grows.clone (consistent : heap.Consistent) (value : Value) :
    Grows heap (heap.clone value).2 := by
  obtain ⟨depth, -, copying⟩ := heap.exists_clone_eq value
  rw [copying]
  exact (growing_cloneWithin (depth + 1) [] value consistent).2

theorem clone_run (sound : heap.Sound held) {value : Value} (issued : heap.Issued value) :
    ∃ copies, CopyRun Heap.Sound heap heap (heap.clone value).2 [] copies [] held [value] ∧
      CopyOf heap (heap.clone value).2 copies value (heap.clone value).1 := by
  obtain ⟨depth, enough, copying⟩ := heap.exists_clone_eq value
  rw [copying]
  have settled : ∀ later, heap.Settled later value :=
    fun _ _ below => .inl (sound.issued_below issued below)
  exact ⟨_, clones_cloneWithin sound.keeping sound.toConsistent sound.pool (depth + 1)
    (.start sound.toConsistent) sound (settled _) enough⟩

theorem CopyState.sameKey (state : CopyState source heap copies pending) {value copy : Value}
    (issued : source.Issued value) (copied : CopyOf source heap copies value copy) :
    SameKey source heap value copy := by
  cases copied with
  | container entered => exact sameKey_of_multi (state.multi entered) (state.kind_copy entered)
  | same durable live single => exact sameKey_of_payload (state.payload issued)
  | plain scratch isPlain fresh durable payload => exact sameKey_of_payload payload
  | absent stale => exact sameKey_of_payload (payload_of_not_isLive stale).symm

/-- When nothing is pending, the copy of a bucket holds the copies of its items. -/
theorem CopyState.sameBucket {sourceHeld : Multiset Value} (sound : source.Sound sourceHeld)
    (state : CopyState source heap copies []) {table bucket copy : Value} {content : HashTable}
    (found : source.table? table = some content) (member : bucket ∈ content.buckets)
    (copied : CopyOf source heap copies bucket copy) : SameBucket source heap bucket copy := by
  rcases state.bucket sound.toShaped found member copied with
    ⟨absent, copyAbsent⟩ | ⟨isArray, entered⟩
  · exact .inl ⟨absent, .inl copyAbsent⟩
  · obtain ⟨items, payload⟩ : ∃ items, source.payload bucket = .array items := by
      unfold kind at isArray
      cases form : source.payload bucket <;> simp_all [Payload.kind]
    obtain ⟨children, filled, itemsCopied⟩ := state.filled entered List.not_mem_nil
    rw [payload] at filled
    rw [Heap.children, payload] at itemsCopied
    have issued : ∀ item ∈ items, source.Issued item := fun item inside =>
      sound.issued_child (by rwa [Heap.children, payload] : item ∈ source.children bucket)
    exact .inr ⟨items, children, payload, filled,
      ((List.forall₂_and_left _ _).mpr ⟨issued, itemsCopied⟩).imp fun _ _ both =>
        state.sameKey both.1 both.2⟩

theorem Grows.keeps (grows : Grows heap heap')
    (bucket : ∀ {table value}, heap.Issued value → heap'.HasBucket table value →
      heap.HasBucket table value) :
    Keeps ∅ heap heap' where
  hashBuckets := grows.hashBuckets
  issued := grows.issued
  live := grows.live
  kind := fun issued => by rw [kind, grows.payload issued, kind]
  payload := fun issued _ => grows.payload issued
  bucket := bucket

/-- Tables that were there before keep their content. -/
theorem Grows.table? (grows : Grows heap heap') {table : Value} {content : HashTable}
    (issued : heap.Issued table) (found : heap'.table? table = some content) :
    heap.table? table = some content := by
  rwa [table?_eq_some_iff, grows.payload issued, ← table?_eq_some_iff] at found

theorem keeps_clone (sound : heap.Sound held) {value : Value} (issued : heap.Issued value) :
    Keeps ∅ heap (heap.clone value).2 := by
  obtain ⟨copies, run, -⟩ := clone_run sound issued
  refine run.grows.keeps fun {table bucket} bucketIssued has => ?_
  obtain ⟨present, content, found, member⟩ := has
  by_cases tableIssued : heap.Issued table
  · exact ⟨present, content, run.grows.table? tableIssued found, member⟩
  · obtain ⟨key, original, -, keyFound, -, isPending | copied⟩ :=
      run.state.table tableIssued found
    · simp at isPending
    · obtain ⟨origin, inside, copyOf⟩ := exists_mem_of_forall₂ copied member
      rcases run.state.bucket sound.toShaped keyFound inside copyOf with
        ⟨-, absent⟩ | ⟨-, entered⟩
      · exact absurd absent present
      · exact absurd bucketIssued (run.state.fresh entered)

/-- A table is as it was before the copying, or the copy of one below the value. -/
theorem table?_clone (sound : heap.Sound held) {value table : Value} {content : HashTable}
    (issued : heap.Issued value) (found : (heap.clone value).2.table? table = some content) :
    heap.table? table = some content ∨ ∃ key original, heap.Below value key ∧
      heap.table? key = some original ∧ content.pairs = original.pairs ∧
      List.Forall₂ (SameBucket heap (heap.clone value).2) original.buckets content.buckets := by
  obtain ⟨copies, run, -⟩ := clone_run sound issued
  by_cases tableIssued : heap.Issued table
  · exact .inl (run.grows.table? tableIssued found)
  · obtain ⟨key, original, entered, keyFound, pairs, isPending | copied⟩ :=
      run.state.table tableIssued found
    · simp at isPending
    · obtain ⟨root, isRoot, below⟩ := (run.below entered).resolve_left List.not_mem_nil
      refine .inr ⟨key, original, List.mem_singleton.mp isRoot ▸ below, keyFound, pairs, ?_⟩
      exact ((List.forall₂_and_left _ _).mpr ⟨fun _ => id, copied⟩).imp fun _ _ both =>
        run.state.sameBucket sound keyFound both.1 both.2

/-- A table that does not count its pairs does no harm to a copying that does not come upon it. -/
theorem TalliedOutside.clone {outside : Set Value} (tallied : heap.TalliedOutside outside)
    (sound : heap.Sound held) {value : Value} (issued : heap.Issued value)
    (apart : ∀ table ∈ outside, ¬heap.Below value table) :
    (heap.clone value).2.TalliedOutside outside := by
  intro table content inside found
  rcases table?_clone sound issued found with old | ⟨key, original, below, keyFound, pairs, same⟩
  · exact (tallied inside old).transport rfl (List.forall₂_same.mpr fun _ member =>
      (keeps_clone sound issued).sameBucket sound old member fun _ => Set.notMem_empty _)
  · exact (tallied (fun isOutside => apart key isOutside below) keyFound).transport pairs same

theorem Step.clone (sound : heap.Sound held) {value : Value} (issued : heap.Issued value) :
    Step ∅ True heap (heap.clone value).2 held := by
  obtain ⟨copies, run, -⟩ := clone_run sound issued
  have keeps := keeps_clone sound issued
  refine ⟨run.kept, keeps, fun _ ordered {table content} found => ?_,
    fun _ tallied => tallied.clone sound issued fun _ none => none.elim⟩
  rcases table?_clone sound issued found with old | ⟨key, original, -, keyFound, pairs, same⟩
  · exact keeps.orderedTable sound old (ordered old) fun _ _ => Set.notMem_empty _
  · exact (ordered keyFound).transport run.grows.hashBuckets pairs same

/-! ## Owning -/

/-- What an owned value is: a durable value that serves as well as a key. -/
structure Owned (heap heap' : Heap σ) (value owned : Value) : Prop where
  issued : heap'.Issued owned
  durable : owned.isScratch = false
  sameKey : SameKey heap heap' value owned

theorem Step.own (sound : heap.Sound held) {value : Value} (issued : heap.Issued value) :
    Step ∅ True heap (heap.own value).2 held := by
  unfold Heap.own
  split
  · exact .clone sound issued
  · exact .refl _ _ sound

theorem TalliedOutside.own {outside : Set Value} (tallied : heap.TalliedOutside outside)
    (sound : heap.Sound held) {value : Value} (issued : heap.Issued value)
    (apart : value.isScratch = true → ∀ table ∈ outside, ¬heap.Below value table) :
    (heap.own value).2.TalliedOutside outside := by
  unfold Heap.own
  split
  next scratch => exact tallied.clone sound issued (apart scratch)
  next => exact tallied

theorem owned_own (sound : heap.Sound held) {value : Value} (issued : heap.Issued value) :
    Owned heap (heap.own value).2 value (heap.own value).1 := by
  unfold Heap.own
  split
  next scratch =>
    obtain ⟨copies, run, copied⟩ := clone_run sound issued
    exact ⟨run.state.issued_of_copyOf sound.toConsistent run.kept.toConsistent copied,
      run.state.durable_of_copyOf copied, run.state.sameKey issued copied⟩
  next durable =>
    exact ⟨issued, by simpa using durable, sameKey_of_payload rfl⟩

/-- Copying a scratch value that is no container makes at most a cell for it. -/
theorem clone_of_fixed (sound : heap.Sound held) {value : Value}
    (scratch : value.isScratch = true) (fixed : (heap.kind value).hasFixedText = true) :
    (heap.clone value).2 = heap ∨
      ∃ payload : Payload σ, payload.isPlainData = true ∧
        (heap.clone value).2 = (heap.create payload).2 := by
  obtain ⟨depth, -, copying⟩ := heap.exists_clone_eq value
  simp only [copying, cloneWithin, List.lookup_nil]
  cases found : heap.cell? value with
  | none => exact .inl rfl
  | some cell =>
      have payload := payload_of_cell? found
      have isPlain : cell.payload.isPlainData = true := by
        rw [← payload]
        refine (sound.pool scratch (isLive_of_cell? found)).resolve_right fun isArray => ?_
        rw [isArray] at fixed
        contradiction
      have single : cell.payload.shell? = none :=
        Payload.shell?_eq_none_iff.mpr (isMulti_of_isPlainData isPlain)
      simp only [single, scratch, isPlain, if_true]
      exact .inr ⟨_, isPlain, rfl⟩

/-- Owning a value with a settled text makes no table. -/
theorem table?_own (sound : heap.Sound held) {value other : Value} {content : HashTable}
    (fixed : (heap.kind value).hasFixedText = true)
    (found : (heap.own value).2.table? other = some content) :
    heap.table? other = some content := by
  unfold own at found
  split at found
  next scratch =>
    rcases clone_of_fixed sound scratch fixed with same | ⟨payload, isPlain, same⟩
    · rwa [same] at found
    · rw [same] at found
      refine (table?_create sound.toConsistent found).resolve_left fun isHash => ?_
      rw [isHash] at isPlain
      contradiction
  next => exact found

end CountedHeap.Heap
