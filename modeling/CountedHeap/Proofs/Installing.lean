import CountedHeap.Proofs.FiledTables
import CountedHeap.Proofs.PairCounts
import CountedHeap.Registry
import Mathlib.Data.List.Induction
import Mathlib.Data.List.MinMax

/-!
Contract: a registry and the hash into which it is installed agree.

Every entry makes a native and stores it under a scratch string, all of them in one scope.  An entry
changes what is under its own name and nothing that was there but the count of the value that it
replaces, so the entries can be taken one after another.  The scope drops the strings, which hold
nothing.

Owns:
- the names and functions of a registry, from the registrations;
- `Installs`, what entries leave behind while the scope is open, one and then all;
- closing the scope, and `Installed`, what is left in the end.

Does not own: calling what was installed.
-/

namespace CountedHeap

variable {σ : Signature}

/-! ## Registrations -/

namespace Registry

/-- The registry that a list of registrations makes. -/
def ofCalls (calls : List (String × Function σ)) : Registry σ :=
  calls.foldl (fun known call => known.register call.1 call.2) {}

theorem ofCalls_concat (calls : List (String × Function σ)) (name : String)
    (function : Function σ) :
    ofCalls (calls ++ [(name, function)]) = (ofCalls calls).register name function := by
  rw [ofCalls, List.foldl_append]
  rfl

/-- Each name is listed once, in the order of the first registrations. -/
theorem names_ofCalls (calls : List (String × Function σ)) :
    (ofCalls calls).names = (calls.map (·.1)).eraseDups := by
  induction calls using List.reverseRecOn with
  | nil => rfl
  | append_singleton earlier call inductionHypothesis =>
      obtain ⟨name, function⟩ := call
      rw [ofCalls_concat, names_register, inductionHypothesis, List.map_append, List.map_singleton,
        List.eraseDups_append, List.removeAll]
      by_cases present : name ∈ earlier.map (·.1)
      · have known := List.elem_eq_true_of_mem present
        rw [if_pos (List.mem_eraseDups.mpr present),
          List.filter_cons_of_neg (by rw [known]; decide)]
        exact (List.append_nil _).symm
      · have new : List.elem name (earlier.map (·.1)) = false :=
          eq_false_of_ne_true (mt List.elem_iff.mp present)
        rw [if_neg (mt List.mem_eraseDups.mp present),
          List.filter_cons_of_pos (by rw [new]; decide)]
        rfl

/-- The function of a name is the one that was registered last. -/
theorem get?_ofCalls (calls : List (String × Function σ)) (name : String) :
    (ofCalls calls).get? name = calls.reverse.lookup name := by
  induction calls using List.reverseRecOn with
  | nil => rfl
  | append_singleton earlier call inductionHypothesis =>
      obtain ⟨registered, function⟩ := call
      rw [ofCalls_concat, get?_register, inductionHypothesis, List.reverse_append,
        List.reverse_singleton, List.singleton_append, List.lookup_cons]
      by_cases same : name = registered
      · rw [if_pos same, beq_iff_eq.mpr same]
      · rw [if_neg same, beq_eq_false_iff_ne.mpr same]

theorem mem_entries_of_get? {registry : Registry σ} {name : String} {function : Function σ}
    (registered : registry.get? name = some function) : (name, function) ∈ registry.entries := by
  obtain ⟨front, back, whole, -⟩ := List.lookup_eq_some_iff.mp registered
  rw [whole]
  exact List.mem_append_right _ List.mem_cons_self

end Registry

namespace Heap

variable {heap ready heap' : Heap σ} {table bucket value callable key stored answer : Value}
  {content : HashTable} {name part : String} {function : Function σ} {bound : Nat}
  {entries : List (String × Function σ)}

/-! ## Making a native and its name -/

/-- The heap in which an entry is stored: its native is there, and its name as a scratch string. -/
structure Readies (heap ready : Heap σ) (callable key : Value) (name : String)
    (function : Function σ) : Prop where
  leads : Leads True 0 heap ready
  making : Alters ∅ heap ready
  plain : ∀ {value}, heap.items? value = none → ready.items? value = none
  hashBuckets : ready.config.hashBuckets = heap.config.hashBuckets
  fresh : ¬heap.Issued callable
  native : ready.payload callable = .exec (.plain function)
  unheld : ready.refs callable = 0
  durable : callable.isScratch = false
  scratch : key.isScratch = true
  named : ready.payload key = .text name
  refs : ∀ {value}, heap.Issued value → ready.refs value = heap.refs value
  pool : ∀ {value}, value.isScratch = true → ready.isLive value = true →
    value = key ∨ heap.isLive value = true

theorem readies (consistent : heap.Consistent) (name : String) (function : Function σ) :
    let made := heap.native function
    let named := made.2.scratchString name
    Readies heap named.2 made.1 named.1 name function := by
  let payload : Payload σ := .exec (.plain function)
  have fresh : ¬heap.Issued (heap.create payload).1 := not_issued_create consistent payload
  have creating : Alters ∅ heap (heap.create payload).2 := .create consistent payload
  have others : ∀ {value}, (heap.create payload).2.Issued value →
      ((heap.create payload).2.createScratch (.text name)).2.cell? value =
        (heap.create payload).2.cell? value :=
    fun issued => cell?_createScratch_of_ne fun same => not_issued_createScratch _ (same ▸ issued)
  have born : ((heap.create payload).2.createScratch (.text name)).2.cell?
      (heap.create payload).1 = some { payload } := by
    rw [others (issued_create_self consistent payload), cell?_create_self consistent payload]
  exact
    { leads := Leads.trans (.createSingle rfl) (.scratchString _ name)
      making := creating.trans (.scratchString creating.consistent name) fun _ => id
      plain := fun {value} none => by
        rw [native, scratchString, items?]
        by_cases isKey : value = ((heap.create payload).2.createScratch (.text name)).1
        · rw [isKey, payload_createScratch_self]
          rfl
        · rw [payload_createScratch_of_ne isKey, payload_create consistent]
          split
          next => rfl
          next => exact none
      hashBuckets := congrArg Config.hashBuckets (config_create payload)
      fresh := fresh
      native := payload_of_cell? born
      unheld := by rw [Heap.refs, native, scratchString, born]
      durable := isScratch_create payload
      scratch := rfl
      named := payload_scratchString name
      refs := fun issued => by
        rw [native, scratchString, refs_eq_of_cell?_eq (others (creating.issued issued)),
          refs_eq_of_cell?_eq (cell?_create_of_issued consistent payload issued)]
      pool := fun {value} scratch live => by
        have different : value ≠ (heap.create payload).1 := by
          rintro rfl
          rw [isScratch_create] at scratch
          contradiction
        rw [native, scratchString, isLive_createScratch, Bool.or_eq_true,
          decide_eq_true_iff, isLive_create consistent, decide_eq_false different,
          Bool.false_or] at live
        exact live }

/-! ## Storing a native -/

/-- What may be written when pairs are stored in a hash: the hash and the arrays of its buckets. -/
def written (heap : Heap σ) (table : Value) : Set Value :=
  {value | value ∈ heap.storeCells table ∧ (heap.kind value).isMulti = true}

theorem ne_null_of_mem_written (member : value ∈ heap.written table) : value ≠ .null := by
  rintro rfl
  exact Bool.false_ne_true member.2

/-- A write under a text of a hash writes the hash and a bucket. -/
theorem Puts.overwrites (puts : Puts heap heap heap' table part stored answer)
    (isTable : heap.table? table = some content)
    (kind : ∀ {value}, heap.Issued value → heap'.kind value = heap.kind value) :
    Overwrites (heap.written table) heap heap' := by
  obtain ⟨cells, alters, within⟩ := puts.exists_cells
  refine ⟨alters.mono fun {value} issued inside => ?_, kind, fun _ member => member.2⟩
  obtain ⟨looked, multi⟩ := within issued inside
  refine ⟨?_, multi⟩
  rcases List.mem_cons.mp looked with rfl | inBucket
  · exact .inl rfl
  · obtain ⟨place, -⟩ := List.mem_filter.mp inBucket
    rw [bucketFor?_of_table? isTable, Option.mem_toList] at place
    refine .inr ⟨kind_of_table? isTable, ?_⟩
    rw [children_of_table? isTable]
    exact List.mem_of_getElem? place

/-- A chain of changes that keeps cells alive keeps their kinds. -/
theorem Leads.kind_eq (leads : Leads True 0 heap heap') (consistent : heap.Consistent)
    (issued : heap.Issued value) (live : heap'.isLive value = heap.isLive value) :
    heap'.kind value = heap.kind value := by
  obtain ⟨made, trace⟩ := leads.trace
  cases present : heap'.isLive value with
  | true => exact trace.kind_eq consistent issued present
  | false =>
      rw [kind, payload_of_not_isLive present, kind,
        payload_of_not_isLive (live.symm.trans present)]

/-- A new native that is held once. -/
structure HoldsNative (heap heap' : Heap σ) (callable : Value) (function : Function σ) : Prop where
  fresh : ¬heap.Issued callable
  payload : heap'.payload callable = .exec (.plain function)
  refs : heap'.refs callable = 1

/-- The heap after entries were stored in a hash, while their names are in the pool.  Of what was
there, only the hash and its buckets are written; the values that were under the names are released,
once for each name. -/
structure Installs (heap heap' : Heap σ) (table : Value)
    (entries : List (String × Function σ)) : Prop where
  proper : heap'.Proper True
  overwrites : Overwrites (heap.written table) heap heap'
  written : ∀ {value}, heap.Issued value → value ∈ heap'.written table →
    value ∈ heap.written table
  filed : heap'.Filed table
  natives : ∀ name function, (name, function) ∈ entries →
    HoldsNative heap heap' (heap'.getText table name) function
  others : ∀ text, text ∉ entries.map (·.1) →
    heap'.valueAt? table text = heap.valueAt? table text
  pairCount : heap'.pairCount table = heap.pairCount table +
    (entries.map (·.1)).countP fun name => (heap.valueAt? table name).isNone
  refs : ∀ {value}, heap.Issued value → heap'.refs value =
    heap.refs value - ((entries.map (·.1)).map (heap.getText table)).count value
  keys : ∀ text, ∀ key ∈ keysOf (heap'.searched table text),
    key ∈ keysOf (heap.searched table text) ∨ key.isScratch = false
  pool : ∀ {value}, value.isScratch = true → heap'.isLive value = true → ¬heap.Issued value →
    heap'.kind value = .text

/-- Cells that are made are none of those that may be written. -/
theorem mem_written_of_making (making : Alters ∅ heap ready) (issuedTable : heap.Issued table)
    (issued : heap.Issued value) (member : value ∈ ready.written table) :
    value ∈ heap.written table := by
  have payload : ∀ {value}, heap.Issued value → ready.payload value = heap.payload value :=
    fun issued => making.payload issued (Set.notMem_empty _)
  obtain ⟨inside, multi⟩ := member
  rw [storeCells, kind, children, payload issuedTable, ← kind, ← children] at inside
  rw [kind, payload issued, ← kind] at multi
  exact ⟨inside, multi⟩

/-- One entry is stored. -/
theorem installs_entry (proper : heap.Proper True) (isTable : heap.table? table = some content)
    (filed : heap.Filed table) (issued : heap.Issued (heap.getText table name))
    (readies : Readies heap ready callable key name function)
    (leads : Leads True 0 ready heap')
    (puts : Puts ready ready heap' table name callable answer)
    (isBucket : heap'.bucketFor? table name = some bucket)
    (trades : Trades bucket ready heap' callable answer) :
    Installs heap heap' table [(name, function)] := by
  have making := readies.making
  have consistent := proper.toConsistent
  have issuedTable := consistent.issued (isLive_of_table? isTable)
  have properReady := readies.leads.proper proper
  have consistentReady := properReady.toConsistent
  obtain ⟨filedReady, same⟩ := filed.afterMaking consistent making readies.plain issuedTable
  have isTableReady : ready.table? table = some content := same.table?.trans isTable
  have shelves : ShelvesOnly ready heap' table name :=
    fun other => trades.arrays fun isValue => other (isValue ▸ isBucket)
  have kinds : ∀ {value}, ready.Issued value → heap'.kind value = ready.kind value := by
    intro value issued
    obtain ⟨_, alters, -⟩ := puts.exists_cells
    exact leads.kind_eq consistentReady issued (alters.live issued)
  have writes := puts.overwrites isTableReady kinds
  have kindOld : ∀ {value}, heap.Issued value → heap'.kind value = heap.kind value := by
    intro value issued
    rw [kinds (making.issued issued), kind, making.payload issued (Set.notMem_empty _), ← kind]
  have answered : answer = heap.getText table name :=
    (puts.answer_eq_getText isTableReady).trans (same.getText_eq name)
  have live : ready.isLive callable = true :=
    isLive_of_payload_ne (by rw [readies.native]; simp)
  have issuedCallable := properReady.issued live
  refine
    { proper := leads.proper properReady
      overwrites := ⟨?_, kindOld, fun _ member => member.2⟩
      written := fun {value} issued member => ?_
      filed := puts.keeps_filed isTableReady consistentReady filedReady shelves writes
      natives := fun other function' member => ?_
      others := fun text outside => ?_
      pairCount := ?_
      refs := fun {value} issued => ?_
      keys := fun text key' member => ?_
      pool := fun {value} scratch live fresh => ?_ }
  · apply (making.mono fun _ => False.elim).trans writes.alters
    exact fun issued member => mem_written_of_making making issuedTable issued member
  · apply mem_written_of_making making issuedTable issued
    have inside := puts.mem_storeCells isTableReady (making.issued issued)
      (ne_null_of_mem_written member) member.1
    exact ⟨inside, kinds (making.issued issued) ▸ member.2⟩
  · obtain ⟨rfl, rfl⟩ := Prod.mk.inj (List.mem_singleton.mp member)
    rw [puts.getText_eq isTableReady filedReady writes]
    refine ⟨readies.fresh, ?_, ?_⟩
    · rw [writes.alters.payload issuedCallable, readies.native]
      rintro ⟨-, multi⟩
      rw [kind, readies.native] at multi
      contradiction
    · have different : callable ≠ answer := by
        rintro rfl
        exact readies.fresh (answered ▸ issued)
      rw [trades.refs issuedCallable, readies.unheld, if_pos rfl, if_neg different]
  · have other : text ≠ name := by simpa using outside
    rw [puts.valueAt?_eq isTableReady consistentReady filedReady shelves writes other,
      same.valueAt?_eq]
  · rw [puts.pairCount_eq isTableReady filedReady, same.pairCount_eq, same.valueAt?_eq]
    simp [List.countP_cons]
  · have different : value ≠ callable := by
      rintro rfl
      exact readies.fresh issued
    rw [trades.refs (making.issued issued), readies.refs issued, if_neg different, answered,
      Nat.add_zero, List.map_singleton, List.map_singleton, List.count_singleton]
    simp only [beq_iff_eq, @eq_comm _ value]
  · have reshelves := puts.reshelves isTableReady consistentReady filedReady shelves text
    rcases reshelves.mem_keysOf member with old | ⟨fresh, named⟩
    · exact .inl (same.searched text ▸ old)
    · right
      apply eq_false_of_ne_true
      intro scratch
      have live := isLive_of_payload_text named
      rw [isLive_of_serials_eq trades.serials scratch] at live
      exact fresh (properReady.issued live)
  · rw [isLive_of_serials_eq trades.serials scratch] at live
    rcases readies.pool scratch live with rfl | old
    · rw [kinds (properReady.issued live), kind, readies.named]
      rfl
    · exact absurd (consistent.issued old) fresh

/-- Storing an entry ends, or there is no room for the buckets or for one pair more. -/
theorem within_storeEntry (proper : heap.Proper True) (isTable : heap.table? table = some content)
    (filed : heap.Filed table) (issued : heap.Issued (heap.getText table name))
    (slots : content.buckets = [] → max heap.config.hashBuckets 1 ≤ bound)
    (room : (heap.searched table name).length + 2 ≤ bound)
    (readies : Readies heap ready callable key name function) :
    EndsWithin bound (ready.setKey table key callable) fun result =>
      Installs heap result.2 table [(name, function)] ∧
      (∀ text, (result.2.searched table text).length ≤ (heap.searched table text).length + 2) ∧
      ∃ content', result.2.table? table = some content' ∧ content'.buckets ≠ [] := by
  have properReady := readies.leads.proper proper
  have consistent := properReady.toConsistent
  obtain ⟨filedReady, same⟩ := filed.afterMaking proper.toConsistent readies.making readies.plain
    (proper.toConsistent.issued (isLive_of_table? isTable))
  have isTableReady : ready.table? table = some content := same.table?.trans isTable
  have live : ready.isLive callable = true :=
    isLive_of_payload_ne (by rw [readies.native]; simp)
  have slotsReady : content.buckets = [] → max ready.config.hashBuckets 1 ≤ bound :=
    readies.hashBuckets ▸ slots
  have roomReady : (ready.searched table name).length + 2 ≤ bound := same.searched name ▸ room
  have storing := ends_setKey consistent isTableReady readies.scratch readies.named callable
    slotsReady fun bucketFor => bucketFor.searched_eq isTableReady ▸ roomReady
  have trading := within_setKey consistent isTableReady readies.scratch readies.named
    readies.durable live slotsReady roomReady
  apply (trading.and_ends storing).attach.mono
  rintro ⟨answer, last⟩ ⟨done, ⟨bucket, isBucket, trades⟩, stored, owns, puts⟩
  obtain rfl := owns.storedAs.2 readies.durable
  have shelves : ShelvesOnly ready last table name :=
    fun other => trades.arrays fun isValue => other (isValue ▸ isBucket)
  refine ⟨installs_entry proper isTable filed issued readies (.setKey properReady done) puts
    isBucket trades, fun text => ?_, puts.exists_buckets isTableReady⟩
  rw [← same.searched]
  exact (puts.reshelves isTableReady consistent filedReady shelves text).length_le

/-! ## Storing all natives -/

theorem Installs.refl (proper : heap.Proper True) (filed : heap.Filed table) :
    Installs heap heap table [] where
  proper := proper
  overwrites := ⟨.refl _ proper.toConsistent, fun _ => rfl, fun _ member => member.2⟩
  written := fun _ => id
  filed := filed
  natives := by simp
  others := fun _ _ => rfl
  pairCount := rfl
  refs := fun _ => rfl
  keys := fun _ _ => .inl
  pool := fun _ live fresh => absurd (proper.toConsistent.issued live) fresh

variable {between : Heap σ}

/-- The values under other names are those that were there. -/
theorem Installs.getText_eq (installs : Installs heap between table entries)
    (filed : heap.Filed table) {text : String} (outside : text ∉ entries.map (·.1)) :
    between.getText table text = heap.getText table text := by
  rw [installs.filed.getText_eq, installs.others text outside, filed.getText_eq]

/-- One entry keeps what is under every other text. -/
theorem Installs.valueAt?_of_ne (installs : Installs heap between table [(name, function)])
    {text : String} (other : text ≠ name) :
    between.valueAt? table text = heap.valueAt? table text :=
  installs.others text (by simpa using other)

theorem Installs.getText_of_ne (installs : Installs heap between table [(name, function)])
    (filed : heap.Filed table) {text : String} (other : text ≠ name) :
    between.getText table text = heap.getText table text :=
  installs.getText_eq filed (by simpa using other)

/-- A native that was stored is kept by the entries after it. -/
theorem Installs.holdsNative (installs : Installs between heap' table entries)
    (consistent : between.Consistent) (filed : between.Filed table)
    (outside : name ∉ entries.map (·.1))
    (others : between.getText table name ∉ (entries.map (·.1)).map (between.getText table))
    (holds : HoldsNative heap between (between.getText table name) function) :
    HoldsNative heap heap' (heap'.getText table name) function := by
  rw [installs.getText_eq filed outside]
  have issued : between.Issued (between.getText table name) :=
    consistent.issued (isLive_of_payload_ne (by rw [holds.payload]; simp))
  refine ⟨holds.fresh, ?_, ?_⟩
  · rw [installs.overwrites.alters.payload issued, holds.payload]
    rintro ⟨-, multi⟩
    rw [kind, holds.payload] at multi
    contradiction
  · rw [installs.refs issued, holds.refs, List.count_eq_zero_of_not_mem others]

/-- One entry is stored and then the others. -/
theorem Installs.cons (first : Installs heap between table [(name, function)])
    (rest : Installs between heap' table entries) (filed : heap.Filed table)
    (new : name ∉ entries.map (·.1))
    (issued : ∀ other ∈ entries.map (·.1), heap.Issued (heap.getText table other)) :
    Installs heap heap' table ((name, function) :: entries) := by
  have different : ∀ other ∈ entries.map (·.1), other ≠ name :=
    fun other member => ne_of_mem_of_not_mem member new
  have sameTexts : (entries.map (·.1)).map (between.getText table) =
      (entries.map (·.1)).map (heap.getText table) :=
    List.map_congr_left fun other member => first.getText_of_ne filed (different other member)
  have altering := first.overwrites.alters
  exact
    { proper := rest.proper
      overwrites :=
        { alters := altering.trans rest.overwrites.alters first.written
          kind := fun issued =>
            (rest.overwrites.kind (altering.issued issued)).trans (first.overwrites.kind issued)
          multi := fun _ member => member.2 }
      written := fun issued member =>
        first.written issued (rest.written (altering.issued issued) member)
      filed := rest.filed
      natives := fun other function' member => by
        rcases List.mem_cons.mp member with isFirst | member
        · obtain ⟨rfl, rfl⟩ := Prod.mk.inj isFirst
          have holds := first.natives other function' List.mem_cons_self
          apply rest.holdsNative first.proper.toConsistent first.filed new _ holds
          rw [sameTexts]
          intro replaced
          obtain ⟨later, isLater, same⟩ := List.mem_map.mp replaced
          exact holds.fresh (same ▸ issued later isLater)
        · have holds := rest.natives other function' member
          exact ⟨mt altering.issued holds.fresh, holds.payload, holds.refs⟩
      others := fun text outside => by
        rw [List.map_cons, List.mem_cons, not_or] at outside
        rw [rest.others text outside.2, first.valueAt?_of_ne outside.1]
      pairCount := by
        have counts : ((entries.map (·.1)).countP fun name =>
            (between.valueAt? table name).isNone) =
              (entries.map (·.1)).countP fun name => (heap.valueAt? table name).isNone :=
          List.countP_congr fun other member => by
            rw [first.valueAt?_of_ne (different other member)]
        rw [rest.pairCount, first.pairCount, counts]
        simp only [List.map_cons, List.map_nil, List.countP_cons, List.countP_nil]
        omega
      refs := fun {value} issued => by
        rw [rest.refs (altering.issued issued), first.refs issued, sameTexts, Nat.sub_sub]
        simp only [List.map_cons, List.map_nil, List.count_cons, List.count_nil]
        congr 1
        omega
      keys := fun text key member => by
        rcases rest.keys text key member with older | durable
        · exact first.keys text key older
        · exact .inr durable
      pool := fun {value} scratch live fresh => by
        by_cases issued : between.Issued value
        · rw [rest.overwrites.kind issued]
          exact first.pool scratch ((rest.overwrites.alters.live issued).symm.trans live) fresh
        · exact rest.pool scratch live issued }

/-- Storing all entries ends, or there is no room for the buckets or for so many pairs more. -/
theorem within_installEntries (proper : heap.Proper True)
    (isTable : heap.table? table = some content) (filed : heap.Filed table)
    (distinct : (entries.map (·.1)).Nodup)
    (issued : ∀ name ∈ entries.map (·.1), heap.Issued (heap.getText table name))
    (slots : content.buckets = [] → max heap.config.hashBuckets 1 ≤ bound)
    (room : ∀ text, (heap.searched table text).length + 2 * entries.length ≤ bound) :
    EndsWithin bound (Registry.installEntries table entries heap) fun last =>
      Installs heap last table entries := by
  induction entries generalizing heap content with
  | nil => exact .ended (.refl proper filed)
  | cons entry rest inductionHypothesis =>
      obtain ⟨name, function⟩ := entry
      obtain ⟨new, distinct⟩ := List.nodup_cons.mp distinct
      obtain ⟨issuedFirst, issuedRest⟩ := List.forall_mem_cons.mp issued
      simp only [List.length_cons] at room
      have enough : (heap.searched table name).length + 2 ≤ bound := by
        have whole := room name
        omega
      apply (within_storeEntry proper isTable filed issuedFirst slots
        enough (readies proper.toConsistent name function)).bind
      rintro ⟨answer, between⟩ ⟨first, grown, content', isTable', present⟩
      apply (inductionHypothesis first.proper isTable' first.filed distinct
        (fun other member => ?_) (fun none => absurd none present) (fun text => ?_)).mono
      · intro last later
        exact first.cons later filed new issuedRest
      · rw [first.getText_of_ne filed (ne_of_mem_of_not_mem member new)]
        exact first.overwrites.alters.issued (issuedRest other member)
      · have enough := room text
        have length := grown text
        omega

/-! ## Closing the scope -/

/-- A string holds nothing. -/
theorem childless_of_kind_text {payload : Payload σ} (isText : payload.kind = .text) :
    payload.children = [] ∧ payload.items? = none := by
  cases payload with
  | text => exact ⟨rfl, rfl⟩
  | null | int | real | array | hash | exec | file | program => contradiction

namespace Installs

variable {last : Heap σ} (installs : Installs heap last table entries)

include installs

/-- The names in the pool hold nothing. -/
theorem heldAbove_eq_nil : last.heldAbove heap.scratch.size = [] := by
  rw [heldAbove, List.flatMap_eq_nil_iff]
  intro slot member
  obtain ⟨distance, inside, isSlot⟩ := List.mem_drop_iff_getElem.mp member
  have there : last.scratch[heap.scratch.size + distance]? = some slot := by
    rw [← Array.getElem?_toList, List.getElem?_eq_some_iff]
    exact ⟨by omega, isSlot⟩
  have found : last.cell? (.scratch ⟨heap.scratch.size + distance, slot.serial⟩) =
      some slot.cell := by
    simp only [cell?, there, if_true]
  have live := isLive_of_cell? found
  have fresh : ¬heap.Issued (.scratch ⟨heap.scratch.size + distance, slot.serial⟩) := by
    intro issued
    rw [installs.overwrites.alters.live issued, isLive_scratch_iff] at live
    obtain ⟨below, -⟩ := List.getElem?_eq_some_iff.mp live
    rw [length_serials] at below
    dsimp only at below
    omega
  have isText := installs.pool rfl live fresh
  rw [kind, payload_of_cell? found] at isText
  exact (childless_of_kind_text isText).1

variable (serials : (last.unwind heap.scratch.size).serials = heap.serials)

include serials

/-- What was there or is long-lived is not changed by closing the scope. -/
theorem cell?_unwind (kept : heap.Issued value ∨ value.isScratch = false) :
    (last.unwind heap.scratch.size).cell? value = last.cell? value := by
  have same : (last.unwind heap.scratch.size).isLive value = last.isLive value := by
    rcases kept with issued | durable
    · rw [(installs.overwrites.alters.unwind serials).live issued,
        installs.overwrites.alters.live issued]
    · exact isLive_unwind _ durable
  have dropping : last.unwind heap.scratch.size = last.dropScratch heap.scratch.size := by
    rw [unwind_eq, installs.heldAbove_eq_nil]
    rfl
  rw [dropping] at same ⊢
  cases live : (last.dropScratch heap.scratch.size).isLive value with
  | true => exact cell?_dropScratch_of_isLive _ live
  | false =>
      have gone := same.symm.trans live
      rw [isLive, Option.isSome_eq_false_iff, Option.isNone_iff_eq_none] at live gone
      rw [live, gone]

/-- The hash is not changed by closing the scope. -/
theorem sameTable_unwind (consistent : heap.Consistent) (filed : heap.Filed table)
    (issued : heap.Issued table) : SameTable last (last.unwind heap.scratch.size) table := by
  have payload : ∀ {value}, heap.Issued value ∨ value.isScratch = false →
      (last.unwind heap.scratch.size).payload value = last.payload value :=
    fun kept => payload_eq_of_cell?_eq (installs.cell?_unwind serials kept)
  apply installs.filed.sameTable (payload (.inl issued))
  · intro text bucket place
    by_cases kept : heap.Issued bucket ∨ bucket.isScratch = false
    · rw [items?, payload kept, items?]
    · -- A name in the pool is no array, and then it is gone.
      obtain ⟨fresh, notDurable⟩ := not_or.mp kept
      have scratch : bucket.isScratch = true := eq_true_of_ne_false notDurable
      have gone : (last.unwind heap.scratch.size).isLive bucket = false := by
        rw [isLive_of_serials_eq serials scratch]
        exact eq_false_of_ne_true fun live => fresh (consistent.issued live)
      rw [items?, payload_of_not_isLive gone, items?]
      cases live : last.isLive bucket with
      | false => rw [payload_of_not_isLive live]
      | true => exact (childless_of_kind_text (installs.pool scratch live fresh)).2.symm
  · intro text key member
    rcases installs.keys text key member with old | durable
    · exact payload (.inl (filed.keys text key old).1)
    · exact payload (.inr durable)

end Installs

/-- A hash into which a registry was installed.  Each name has a native of its function, which is
new and held once; every other text has the value that it had, if any; the new names are counted;
the values that were under the names are released, once for each name; the pool is as it was, and
only the hash and its buckets are written. -/
structure Installed (registry : Registry σ) (heap heap' : Heap σ) (table : Value) : Prop where
  natives : ∀ name function, registry.get? name = some function →
    HoldsNative heap heap' (heap'.getText table name) function
  others : ∀ text, text ∉ registry.names →
    heap'.getText table text = heap.getText table text ∧
      (heap'.locate? table text).isSome = (heap.locate? table text).isSome
  pairCount : heap'.pairCount table = heap.pairCount table +
    registry.names.countP fun name => (heap.locate? table name).isNone
  refs : ∀ {value}, heap.Issued value → heap'.refs value =
    heap.refs value - (registry.names.map (heap.getText table)).count value
  pool : heap'.serials = heap.serials
  alters : Alters (heap.storeCells table) heap heap'

theorem Installs.installed {registry : Registry σ} {last : Heap σ}
    (installs : Installs heap last table registry.entries) (consistent : heap.Consistent)
    (filed : heap.Filed table) (issued : heap.Issued table)
    (serials : (last.unwind heap.scratch.size).serials = heap.serials) :
    Installed registry heap (last.unwind heap.scratch.size) table := by
  have same := installs.sameTable_unwind serials consistent filed issued
  have isNone : ∀ name, (heap.locate? table name).isNone = (heap.valueAt? table name).isNone := by
    intro name
    rw [← Option.not_isSome, filed.isSome_locate?, Option.not_isSome]
  exact
    { natives := fun name function registered => by
        have holds := installs.natives name function (Registry.mem_entries_of_get? registered)
        have live : last.isLive (last.getText table name) = true :=
          isLive_of_payload_ne (by rw [holds.payload]; simp)
        have durable : (last.getText table name).isScratch = false := by
          apply eq_false_of_ne_true
          intro scratch
          have isText := installs.pool scratch live holds.fresh
          rw [kind, holds.payload] at isText
          contradiction
        have kept := installs.cell?_unwind serials (.inr durable)
        rw [same.getText_eq]
        exact ⟨holds.fresh, (payload_eq_of_cell?_eq kept).trans holds.payload,
          (refs_eq_of_cell?_eq kept).trans holds.refs⟩
      others := fun text outside => by
        rw [same.getText_eq, same.isSome_locate?_eq, installs.filed.getText_eq,
          installs.filed.isSome_locate?, installs.others text outside, filed.getText_eq,
          filed.isSome_locate?]
        exact ⟨rfl, rfl⟩
      pairCount := by
        simp only [isNone]
        rw [same.pairCount_eq, installs.pairCount]
        rfl
      refs := fun issued => by
        rw [refs_eq_of_cell?_eq (installs.cell?_unwind serials (.inl issued)), installs.refs issued]
        rfl
      pool := serials
      alters := (installs.overwrites.alters.unwind serials).mono fun _ member => member.1 }

/-! ## Installing -/

/-- The length of the longest bucket of a hash. -/
def widest (heap : Heap σ) (table : Value) : Nat :=
  ((heap.children table).map fun bucket => ((heap.items? bucket).getD []).length).foldr max 0

theorem length_searched_le_widest (heap : Heap σ) (table : Value) (text : String) :
    (heap.searched table text).length ≤ heap.widest table := by
  rw [searched]
  cases found : heap.bucketFor? table text with
  | none => exact Nat.zero_le _
  | some bucket =>
      obtain ⟨content, isTable, place⟩ := Option.bind_eq_some_iff.mp found
      have member : bucket ∈ heap.children table := by
        rw [children_of_table? isTable]
        exact List.mem_of_getElem? place
      rw [Option.bind_some]
      exact List.le_max_of_le' 0 (List.mem_map_of_mem member) (Nat.le_refl _)

/-- Installing a registry in a filed hash. -/
theorem within_installInto (proper : heap.Proper True) (registry : Registry σ)
    (isHash : heap.kind table = .hash) (filed : heap.Filed table)
    (issued : ∀ name ∈ registry.names, heap.Issued (heap.getText table name)) :
    EndsWithin (max (max heap.config.hashBuckets 1) (heap.widest table + 2 * registry.size))
      (registry.installInto heap table) fun result =>
        result.1 = registry.size ∧ Installed registry heap result.2 table := by
  obtain ⟨content, isTable⟩ := exists_table?_of_kind isHash
  have consistent := proper.toConsistent
  have storing := within_installEntries proper isTable filed registry.distinct issued
    (fun _ => le_max_left (max heap.config.hashBuckets 1) (heap.widest table + 2 * registry.size))
    fun text => by
      have enough := heap.length_searched_le_widest table text
      unfold Registry.size
      omega
  have closing : ∀ {last}, Registry.installEntries table registry.entries heap = .ok last →
      (last.unwind heap.scratch.size).serials = heap.serials := by
    intro last done
    have leads : Leads True heap.scratch.size heap last := .installEntries proper done
    obtain ⟨made, trace⟩ := leads.trace
    rw [serials_unwind, (trace.serials le_rfl).2, ← length_serials, List.take_length]
  rw [Registry.installInto, if_pos isHash, inScope, bind_assoc]
  apply storing.attach.bind
  rintro last ⟨done, installs⟩
  exact .ended ⟨rfl, installs.installed consistent filed
    (consistent.issued (isLive_of_table? isTable)) (closing done)⟩

/-- A registry and the hash into which it is installed agree, in every heap that operations lead to.

The registry lists each name once, in the order of the first registrations, and has for each name
the function that was registered last.  Installing it in anything but a hash does nothing.  In a
filed hash with values that were made before under the names, it answers the number of names and
leaves the natives; it asks for room for the buckets if there are none, and for a pair for each
name. -/
theorem Runs.installed_registry_agrees {config : Config} (runs : Runs True (.new config) heap)
    (calls : List (String × Function σ)) (table : Value) :
    let registry := Registry.ofCalls calls
    registry.names = (calls.map (·.1)).eraseDups ∧ registry.names.Nodup ∧
    (∀ name, registry.get? name = calls.reverse.lookup name) ∧
    (heap.kind table ≠ .hash → registry.installInto heap table = .ok (0, heap)) ∧
    (heap.kind table = .hash → heap.Filed table →
      (∀ name ∈ registry.names, heap.Issued (heap.getText table name)) →
      EndsWithin
        (max (max heap.config.hashBuckets 1) (heap.widest table + 2 * registry.names.length))
        (registry.installInto heap table) fun result =>
          result.1 = registry.names.length ∧ Installed registry heap result.2 table) := by
  intro registry
  refine ⟨Registry.names_ofCalls calls, registry.distinct, Registry.get?_ofCalls calls,
    fun notHash => ?_, fun isHash filed issued => ?_⟩
  · rw [Registry.installInto, if_neg notHash]
  · have size : registry.names.length = registry.size := List.length_map _
    rw [size]
    exact within_installInto runs.proper_new registry isHash filed issued

/-- A hash with a number under "go", in the only bucket. -/
def numbering : List (Request .bare) :=
  [.hash, .string "go", .int 7, .setKey (.cell ⟨0, 0⟩) (.cell ⟨1, 0⟩) (.cell ⟨2, 0⟩)]

theorem isSome_numbering : ((new { hashBuckets := 1 }).performAll? numbering).isSome = true := by
  decide +kernel

def numbered : Heap .bare :=
  ((new { hashBuckets := 1 }).performAll? numbering).get isSome_numbering

/-- Of two names one is registered twice. -/
def registrations : List (String × Function .bare) :=
  [("go", .core .len), ("stop", .core .text), ("go", .core .sort)]

/-- A table with one bucket searches every text among the same pairs. -/
theorem filed_of_one_bucket {bucket : Value} {items : List Value} {pairs : Nat}
    (isTable : heap.table? table = some { buckets := [bucket], pairs })
    (there : heap.items? bucket = some items)
    (keys : ∀ key ∈ keysOf items, heap.Issued key ∧ (heap.kind key).hasFixedText = true)
    (ascending : ((keysOf items).map heap.text).Pairwise (· ≤ ·)) : heap.Filed table := by
  have place : ∀ text, heap.bucketFor? table text = some bucket := by
    intro text
    have only := Text.bucketOf_lt text (Nat.zero_lt_one)
    rw [bucketFor?_of_table? isTable, List.length_singleton, Nat.lt_one_iff.mp only]
    rfl
  have searched : ∀ text, heap.searched table text = items :=
    fun text => searched_of_bucketFor? (place text) there
  refine ⟨fun text key member => ?_, fun text => ?_⟩
  · exact keys key (searched text ▸ member)
  · rwa [searched]

/-- The number is released, its name keeps the place of its first registration and gets the function
of its last, and the other name is counted. -/
theorem numbered_hash_gets_natives :
    let registry := Registry.ofCalls registrations
    registry.names = ["go", "stop"] ∧ numbered.refs (.cell ⟨2, 0⟩) = 1 ∧
      ∃ heap', registry.installInto numbered (.cell ⟨0, 0⟩) = .ok (2, heap') ∧
        HoldsNative numbered heap' (heap'.getText (.cell ⟨0, 0⟩) "go") (.core .sort) ∧
        HoldsNative numbered heap' (heap'.getText (.cell ⟨0, 0⟩) "stop") (.core .text) ∧
        heap'.refs (.cell ⟨2, 0⟩) = 0 ∧ heap'.pairCount (.cell ⟨0, 0⟩) = 2 ∧
        heap'.serials = [] := by
  have runs : Runs True (.new { hashBuckets := 1 }) numbered :=
    Runs.refl.performAll? (Option.some_get isSome_numbering).symm
  obtain ⟨isHash, isTable, there, lives, fixed, texts, held, values, counted, room, found, pool⟩ :
      numbered.kind (.cell ⟨0, 0⟩) = .hash ∧
      numbered.table? (.cell ⟨0, 0⟩) = some { buckets := [.cell ⟨3, 0⟩], pairs := 1 } ∧
      numbered.items? (.cell ⟨3, 0⟩) = some [.cell ⟨1, 0⟩, .cell ⟨2, 0⟩] ∧
      (∀ index < 3, numbered.isLive (.cell ⟨index, 0⟩) = true) ∧
      (numbered.kind (.cell ⟨1, 0⟩)).hasFixedText = true ∧
      numbered.text (.cell ⟨1, 0⟩) = "go" ∧ numbered.refs (.cell ⟨2, 0⟩) = 1 ∧
      ["go", "stop"].map (numbered.getText (.cell ⟨0, 0⟩)) = [.cell ⟨2, 0⟩, .null] ∧
      numbered.pairCount (.cell ⟨0, 0⟩) = 1 ∧
      max (max numbered.config.hashBuckets 1)
        (numbered.widest (.cell ⟨0, 0⟩) + 2 * ["go", "stop"].length) ≤ elementLimit ∧
      ["go", "stop"].countP (fun name => (numbered.locate? (.cell ⟨0, 0⟩) name).isNone) = 1 ∧
      numbered.serials = [] := by
    decide +kernel
  -- What follows uses only these facts of the heap.
  generalize numbered = heap at *
  have issued : ∀ index < 3, heap.Issued (.cell ⟨index, 0⟩) :=
    fun index below => runs.proper_new.toConsistent.issued (lives index below)
  have filed : heap.Filed (.cell ⟨0, 0⟩) := by
    apply filed_of_one_bucket isTable there
    · intro key member
      obtain rfl := List.mem_singleton.mp member
      exact ⟨issued 1 (by decide), fixed⟩
    · exact List.pairwise_singleton _ _
  obtain ⟨names, -, functions, -, installing⟩ :=
    runs.installed_registry_agrees registrations (.cell ⟨0, 0⟩)
  have isNames : (Registry.ofCalls registrations).names = ["go", "stop"] := by
    rw [names]
    decide
  have isIssued : ∀ name ∈ (Registry.ofCalls registrations).names,
      heap.Issued (heap.getText (.cell ⟨0, 0⟩) name) := by
    intro name member
    rw [isNames] at member
    have value := List.mem_map_of_mem (f := heap.getText (.cell ⟨0, 0⟩)) member
    rw [values, List.mem_cons, List.mem_singleton] at value
    rcases value with isNumber | absent
    · rw [isNumber]
      exact issued 2 (by decide)
    · rw [absent]
      exact trivial
  have ends := installing isHash filed isIssued
  rw [isNames] at ends
  obtain ⟨⟨count, heap'⟩, done, rfl, installed⟩ := ends.exists_ok room
  have refs := installed.refs (issued 2 (by decide))
  rw [isNames, values, held] at refs
  have pairs := installed.pairCount
  rw [isNames, found, counted] at pairs
  refine ⟨isNames, held, heap', done, installed.natives "go" _ ?_, installed.natives "stop" _ ?_,
    refs, pairs, installed.pool.trans pool⟩
  · rw [functions]
    rfl
  · rw [functions]
    rfl

/-- A hash with a pair in its only bucket, of which the key and the value are given. -/
def pairing (key value : Value) : List (Request .bare) :=
  [.hash, .string "go", .setKey (.cell ⟨0, 0⟩) key value]

theorem isSome_foretelling :
    ((new { hashBuckets := 1 }).performAll?
      (pairing (.cell ⟨1, 0⟩) (.cell ⟨3, 0⟩))).isSome = true := by
  decide +kernel

/-- The value under "go" is a handle made by hand: the next one that is issued. -/
def foretold : Heap .bare :=
  ((new { hashBuckets := 1 }).performAll? (pairing (.cell ⟨1, 0⟩) (.cell ⟨3, 0⟩))).get
    isSome_foretelling

theorem isSome_forging :
    ((new { hashBuckets := 1 }).performAll? (pairing (.cell ⟨4, 0⟩) .null)).isSome = true := by
  decide +kernel

/-- The key is a handle made by hand: the next but one that is issued. -/
def forged : Heap .bare :=
  ((new { hashBuckets := 1 }).performAll? (pairing (.cell ⟨4, 0⟩) .null)).get isSome_forging

/-- The kind and the count of the value under a name after only this name was installed. -/
def installedUnder (heap : Heap σ) (table : Value) (native : String × Function σ) :
    Option (Kind × Nat) :=
  ((Registry.ofCalls [native]).installInto heap table).toOption.map fun result =>
    let value := result.2.getText table native.1
    (result.2.kind value, result.2.refs value)

/-- The handle that is stored under a name can be the one that is issued for the native: its count
goes down when it is replaced.  A key that is issued by the call itself gets the text of the name,
and hides the new pair.  Where the texts of the keys do not ascend, the new pair is put where it is
not searched. -/
theorem native_released_or_hidden :
    (Runs True (.new { hashBuckets := 1 }) foretold ∧
      foretold.kind (.cell ⟨0, 0⟩) = .hash ∧
      (∀ key ∈ keysOf (foretold.searched (.cell ⟨0, 0⟩) "go"),
        (foretold.kind key).hasFixedText = true) ∧
      foretold.installedUnder (.cell ⟨0, 0⟩) ("go", .core .len) = some (.exec, 0)) ∧
    (Runs True (.new { hashBuckets := 1 }) forged ∧
      forged.kind (.cell ⟨0, 0⟩) = .hash ∧
      (∀ key ∈ keysOf (forged.searched (.cell ⟨0, 0⟩) "go"),
        (forged.kind key).hasFixedText = true) ∧
      forged.installedUnder (.cell ⟨0, 0⟩) ("go", .core .len) = some (.null, 0)) ∧
    Runs True (.new { hashBuckets := 1 }) disordered ∧
      disordered.kind (.cell ⟨0, 0⟩) = .hash ∧
      (∀ key ∈ keysOf (disordered.searched (.cell ⟨0, 0⟩) "m"),
        (disordered.kind key).hasFixedText = true) ∧
      disordered.installedUnder (.cell ⟨0, 0⟩) ("m", .core .len) = some (.null, 0) := by
  refine ⟨⟨Runs.refl.performAll? (Option.some_get isSome_foretelling).symm, ?_⟩,
    ⟨Runs.refl.performAll? (Option.some_get isSome_forging).symm, ?_⟩,
    Runs.refl.performAll? (Option.some_get isSome_disordering).symm, ?_⟩
  all_goals decide +kernel

end Heap

end CountedHeap
