import CountedHeap.Proofs.Runs
import CountedHeap.Proofs.Scripts
import CountedHeap.Sequence.Search

/-!
Contract: a handle names one cell for ever, and then nothing for ever.

Owns:
- what it is for a handle to be inert: every question about it is answered as about the absent
  value, and nothing is written, counted or called through it;
- handles that name nothing are inert;
- in every run, no handle is made twice, and a handle that was issued and names nothing is
  inert from then on.
-/

namespace CountedHeap

variable {σ : Signature} {heap heap' : Heap σ} {value : Value}

/-- The container that a request is to write, or the root of the path at which it is to write. -/
def Request.container? : Request σ → Option Value
  | .expandItems sequence _ _ | .collapseItems sequence _ _ | .setItem sequence _ _
  | .insertItem sequence _ _ | .deleteItem sequence _ | .pushItem sequence _ | .popItem sequence
  | .queueItem sequence _ _ | .spliceItems sequence _ _ _ | .reverseItems sequence
  | .sortItems sequence _ => some sequence
  | .setKey table _ _ | .eraseKey table _ | .install _ table => some table
  | .setPath root _ _ => some root
  | _ => none

namespace Heap

/-- Every question about the value is answered as about the absent value. -/
structure ReadsAbsent (heap : Heap σ) (value : Value) : Prop where
  isLive : heap.isLive value = false
  payload : heap.payload value = .null
  kind : heap.kind value = .null
  refs : heap.refs value = 0
  size : heap.size value = 0
  children : heap.children value = []
  items : heap.items? value = none
  string : heap.string? value = none
  text : heap.text value = ""
  asInt : heap.asInt value = 0
  asReal : heap.asReal value = heap.asReal .null
  item : ∀ offset, heap.getItem value offset = .null
  stored : ∀ key, heap.getKey value key = .null
  hasKey : ∀ key, heap.hasKey value key = false
  pairCount : heap.pairCount value = 0
  bucket : ∀ key, heap.bucketIndex? value key = none
  pairs : heap.pairs value = []
  nextPair : ∀ cursor, heap.nextPair value cursor = (none, cursor)
  follow : ∀ part rest, heap.follow value (part :: rest) = .null
  linearSeek : ∀ key step, heap.linearSeek value key step = none
  binarySeek : ∀ key step, heap.binarySeek value key step = .missing 0
  first : ∀ other, heap.compare value other = if heap.kind other = .null then .eq else .lt
  last : ∀ other, heap.compare other value = if heap.kind other = .null then .eq else .gt
  target : heap.target? value = none

/-- Besides that, nothing is changed through the value. -/
structure Inert (heap : Heap σ) (value : Value) : Prop extends ReadsAbsent heap value where
  retain : heap.retain value = heap
  release : heap.release value = heap
  clone : heap.clone value = (.null, heap)
  request : ∀ request : Request σ, request.container? = some value →
    heap.perform request = .ok heap
  sort : ∀ call step comparator,
    CountedHeap.sortItems call value step comparator heap = .ok (.ok (), heap)
  call : ∀ host depth arguments, exec host depth value arguments heap = .ok (.ok .null, heap)

/-! ## Questions -/

/-- Nothing comes before an absent value. -/
theorem compare_of_kind_null_left {left : Value} (absent : heap.kind left = .null)
    (right : Value) :
    heap.compare left right = if heap.kind right = .null then .eq else .lt := by
  rw [compare, compareWithin.eq_def]
  by_cases same : left = right
  · subst same
    simp [absent]
  · by_cases alsoAbsent : heap.kind right = .null <;> simp [same, absent, alsoAbsent]

theorem compare_of_kind_null_right {right : Value} (absent : heap.kind right = .null)
    (left : Value) :
    heap.compare left right = if heap.kind left = .null then .eq else .gt := by
  rw [compare, compareWithin.eq_def]
  by_cases same : left = right
  · subst same
    simp [absent]
  · by_cases alsoAbsent : heap.kind left = .null <;> simp [same, absent, alsoAbsent]

theorem readsAbsent_of_not_isLive (stale : heap.isLive value = false) :
    heap.ReadsAbsent value := by
  have payload := payload_of_not_isLive stale
  have kind : heap.kind value = .null := by rw [Heap.kind, payload]; rfl
  have items : heap.items? value = none := by rw [items?, payload]; rfl
  have table : heap.table? value = none := by rw [table?, payload]; rfl
  have located : ∀ text, heap.locate? value text = none := by
    intro text
    rw [locate?, table]
  have text : heap.text value = "" := by
    unfold Heap.text textWithin
    split <;> simp_all
  exact
    { isLive := stale
      payload
      kind
      refs := by
        have none : heap.cell? value = none := by simpa [Heap.isLive] using stale
        rw [Heap.refs, none]
      size := by rw [Heap.size, payload]
      children := children_of_not_isLive stale
      items
      string := by rw [string?, payload]
      text
      asInt := by rw [Heap.asInt, payload]
      asReal := by rw [Heap.asReal, payload, Heap.asReal]; rfl
      item := fun offset => by rw [getItem, items]
      stored := fun key => by rw [getKey, getText, located]
      hasKey := fun key => by rw [Heap.hasKey, located]; rfl
      pairCount := by rw [Heap.pairCount, table]
      bucket := fun key => by rw [bucketIndex?, table]
      pairs := by rw [Heap.pairs, table]
      nextPair := fun cursor => by rw [Heap.nextPair, table]
      follow := fun part rest => by
        rw [Heap.follow, kind]
        rfl
      linearSeek := fun key step => by rw [Heap.linearSeek, items]
      binarySeek := fun key step => by rw [Heap.binarySeek, items]
      first := compare_of_kind_null_left kind
      last := compare_of_kind_null_right kind
      target := by rw [target?, payload] }

/-! ## Changes -/

theorem unwind_self (heap : Heap σ) : heap.unwind heap.scratch.size = heap := by
  simp [unwind, releaseAll, List.drop_of_length_le]

/-- A write to what is absent is a miss, whatever the rest of the request is. -/
theorem perform_of_not_isLive (stale : heap.isLive value = false) {request : Request σ}
    (container : request.container? = some value) : heap.perform request = .ok heap := by
  have reads := readsAbsent_of_not_isLive stale
  have position : ∀ offset, heap.itemPosition? value offset = none := by
    intro offset
    rw [itemPosition?, reads.items]
    rfl
  have table : heap.table? value = none := by rw [table?, reads.payload]; rfl
  cases request with
  | setPath root path other =>
      obtain rfl := Option.some.inj container
      have nothing : storeBelow root (heap.pathParts path) other heap = .ok (.null, heap) := by
        cases heap.pathParts path with
        | nil => rfl
        | cons part rest => simp [storeBelow, hasPlaceFor, reads.kind]
      rw [perform, setPath, inScope, nothing]
      show Except.ok (heap.unwind heap.scratch.size) = .ok heap
      rw [unwind_self]
  | expandItems | collapseItems | queueItem | reverseItems =>
      obtain rfl := Option.some.inj container
      simp [perform, settle, expandItems, collapseItems, queueItem, reverseItems, reads.items,
        bind, Except.bind, pure, Except.pure]
  | setItem | insertItem | deleteItem | popItem | spliceItems | pushItem =>
      obtain rfl := Option.some.inj container
      simp [perform, settle, setItem, insertItem, deleteItem, popItem, spliceItems, pushItem,
        position, bind, Except.bind, pure, Except.pure]
  | sortItems =>
      obtain rfl := Option.some.inj container
      simp [perform, settle, CountedHeap.sortItems, reads.items, bind, Except.bind, pure,
        Except.pure]
  | setKey | eraseKey =>
      obtain rfl := Option.some.inj container
      simp [perform, settle, setKey, eraseKey, locate?, table, bind, Except.bind, pure,
        Except.pure]
  | install =>
      obtain rfl := Option.some.inj container
      simp [perform, settle, Registry.installInto, reads.kind, bind, Except.bind, pure,
        Except.pure]
  | _ => contradiction

/-- A handle that names nothing is inert. -/
theorem inert_of_not_isLive (stale : heap.isLive value = false) : heap.Inert value := by
  have reads := readsAbsent_of_not_isLive stale
  exact
    { toReadsAbsent := reads
      retain := modifyCell_of_not_isLive stale _
      release := modifyCell_of_not_isLive stale _
      clone := clone_of_not_isLive stale
      request := fun _ => perform_of_not_isLive stale
      sort := fun call step comparator => by simp [CountedHeap.sortItems, reads.items]
      call := exec_of_target?_eq_none reads.target }

/-! ## Runs -/

/-- A run makes its handles one by one.  No two are the same, whatever was reclaimed or unwound
in between, and what was issued and names nothing is inert in every later state. -/
theorem Runs.handles_never_alias {config : Config} (runs : Runs True (.new config) heap)
    (later : Runs True heap heap') :
    (∃ made made', Trace True 0 (.new config) made heap ∧ Trace True 0 heap made' heap') ∧
    (∀ made made', Trace True 0 (.new config) made heap → Trace True 0 heap made' heap' →
      (made ++ made').Nodup ∧ (∀ value ∈ made, heap.Issued value) ∧
        ∀ value, heap'.isLive value = true → value ∈ made ++ made') ∧
    ∀ value, heap.Issued value → heap.isLive value = false → heap'.Inert value := by
  have proper := runs.proper_new
  have empty : (new config : Heap σ).Consistent := (Proper.new True config).toConsistent
  obtain ⟨made, before⟩ := (runs.leads (.new True config) (Nat.zero_le _)).trace
  obtain ⟨made', after⟩ := (later.leads proper (Nat.zero_le _)).trace
  refine ⟨⟨made, made', before, after⟩, fun made made' before after => ?_,
    fun value issued stale => ?_⟩
  · have whole := before.trans after
    refine ⟨whole.nodup empty, fun value member => (before.made_new empty member).2,
      fun value live => ?_⟩
    apply (whole.live empty live).resolve_left
    rw [isLive, cell?_new]
    exact Bool.false_ne_true
  · exact inert_of_not_isLive (after.stale proper.toConsistent issued stale)

/-- A string was reclaimed, and a scratch string was unwound. -/
def turnedOver : Heap .bare :=
  (((((new {}).string "a").2.sweep .full).2.scratchString "b").2).unwind 0

/-- Another string takes the slot, and another scratch string the place in the pool. -/
def takenAgain : Heap .bare :=
  ((turnedOver.string "c").2.scratchString "d").2

theorem reused_places_do_not_alias :
    Runs True (.new {}) turnedOver ∧ Runs True turnedOver takenAgain ∧
      takenAgain.isLive (.cell ⟨0, 1⟩) = true ∧ takenAgain.isLive (.scratch ⟨0, 1⟩) = true ∧
      takenAgain.Inert (.cell ⟨0, 0⟩) ∧ takenAgain.Inert (.scratch ⟨0, 0⟩) := by
  have swept : Runs True (.new {}) (((new {} : Heap .bare).string "a").2.sweep .full).2 :=
    .sweep (.request .refl (show perform _ (.string "a") = .ok _ from rfl)) .full
  have runs : Runs True (.new {}) turnedOver :=
    swept.scope (.request .refl (show perform _ (.scratchString "b") = .ok _ from rfl))
  have named : Runs True turnedOver (turnedOver.string "c").2 :=
    .request .refl (show perform _ (.string "c") = .ok _ from rfl)
  have later : Runs True turnedOver takenAgain :=
    .request named (show perform _ (.scratchString "d") = .ok _ from rfl)
  obtain ⟨-, -, inert⟩ := runs.handles_never_alias later
  exact ⟨runs, later, by decide +kernel, by decide +kernel,
    inert _ (by decide +kernel) (by decide +kernel),
    inert _ (by decide +kernel) (by decide +kernel)⟩

end Heap

end CountedHeap
