import CountedHeap.Proofs.PathWrites
import CountedHeap.Proofs.Seeking

/-!
Contract: reading at a path after a write at the same path.

The reader goes the way of the writer as long as the write changed nothing on that way.  It asks the
keys of one bucket of each hash for their texts, so these have to be settled.  In the container of
the write it finds what was put there, and from there on it follows the new hashes.

Owns:
- the containers that a walk passes through, and what it searches in them;
- the walks that a reader can repeat after a write;
- what is found in a container after something was put there;
- the answer of a write, and what a reader finds after it.
-/

namespace CountedHeap

/-! ## Searching ascending texts -/

/-- In ascending texts a search that misses a text has found its place. -/
theorem Records.lt_of_seek_missing {texts : List String} {text : String} {place : Nat}
    (ascending : texts.Pairwise (· ≤ ·))
    (missing : Records.seek texts 1 (Ord.compare · text) = .missing place) :
    (∀ other ∈ texts.take place, other < text) ∧ ∀ other ∈ texts.drop place, text < other := by
  have leads : ∀ (expected : Ordering) (record : Nat) (inside : record < texts.length),
      Records.leads texts 1 (Ord.compare · text) expected record =
        (Ord.compare texts[record] text == expected) := by
    intro expected record inside
    rw [Records.leads, Nat.mul_one, List.getElem?_eq_getElem inside, Option.any_some]
  have ascends : ∀ {first second : Nat} (_ : first ≤ second) (inside : second < texts.length),
      texts[first] ≤ texts[second] := by
    intro first second order inside
    rcases Nat.lt_or_eq_of_le order with less | rfl
    · exact List.pairwise_iff_getElem.mp ascending first second _ inside less
    · exact Std.le_refl _
  have downward : ∀ {first second : Nat}, first ≤ second → second < texts.length →
      Records.leads texts 1 (Ord.compare · text) .lt second = true →
        Records.leads texts 1 (Ord.compare · text) .lt first = true := by
    intro first second order limit isBelow
    rw [leads _ _ limit, beq_iff_eq, compare_eq_lt_iff] at isBelow
    rw [leads _ _ (Nat.lt_of_le_of_lt order limit), beq_iff_eq, compare_eq_lt_iff]
    exact Std.lt_of_le_of_lt (ascends order limit) isBelow
  obtain ⟨below, notBelow⟩ := Records.firstNotBelow_spec (Nat.zero_le texts.length) downward
  simp only [Records.seek, show max 1 1 = 1 from rfl, Nat.div_one, Nat.mul_one] at missing
  revert below notBelow missing
  generalize Records.firstNotBelow _ 0 texts.length = border
  intro below notBelow missing
  split at missing
  next => contradiction
  next neither =>
    obtain rfl := Seek.missing.inj missing
    refine ⟨fun other member => ?_, fun other member => ?_⟩
    · obtain ⟨record, inside, rfl⟩ := List.mem_take_iff_getElem.mp member
      have isBelow := below record (Nat.zero_le _) (by omega)
      rwa [leads _ _ (by omega), beq_iff_eq, compare_eq_lt_iff] at isBelow
    · obtain ⟨distance, inside, rfl⟩ := List.mem_drop_iff_getElem.mp member
      have atBorder : border < texts.length := by omega
      have notLess := notBelow border le_rfl atBorder
      rw [leads _ _ atBorder, beq_eq_false_iff_ne, ne_eq, compare_eq_lt_iff] at notLess
      rw [leads _ _ atBorder] at neither
      have different : texts[border] ≠ text := by
        rintro same
        exact neither (by simp [atBorder, same])
      exact Std.lt_of_lt_of_le (lt_of_not_lt_of_ne notLess different)
        (ascends (Nat.le_add_right border distance) (by omega))

namespace Heap

variable {σ : Signature} {older heap heap' searching : Heap σ} {cells : Set Value}
  {container table current value stored top answer : Value} {items : List Value}
  {part : String} {parts missing : List String} {landing : Landing}

/-! ## The way of a walk -/

/-- The containers that a walk passes through, each with the part that is looked up in it.  The last
of them is the one under which there is nothing further to walk through. -/
def visits (heap : Heap σ) : Value → List String → List (Value × String)
  | _, [] => []
  | current, part :: rest =>
      (current, part) ::
        if rest = [] ∨ heap.kind (heap.childAt current part) = .null then []
        else heap.visits (heap.childAt current part) rest

/-- The cells that are looked at to look up a part: the container, and the bucket of a hash. -/
def passesAt (heap : Heap σ) (container : Value) (part : String) : List Value :=
  container :: (heap.bucketFor? container part).toList.filter (· ≠ .null)

/-- The cells that a walk looks at. -/
def passes (heap : Heap σ) (current : Value) (parts : List String) : List Value :=
  (heap.visits current parts).flatMap fun visit => heap.passesAt visit.1 visit.2

/-- What is searched for a part was made before, and the texts of its keys cannot change. -/
structure SettledAt (heap : Heap σ) (container : Value) (part : String) : Prop where
  bucket : ∀ bucket, heap.bucketFor? container part = some bucket → heap.Issued bucket
  keys : ∀ key ∈ keysOf (heap.searched container part),
    heap.Issued key ∧ (heap.kind key).hasFixedText = true

/-- What is looked at for a part was made before. -/
theorem SettledAt.issued (settled : heap.SettledAt container part)
    (issued : heap.Issued container) (looked : value ∈ heap.passesAt container part) :
    heap.Issued value := by
  rcases List.mem_cons.mp looked with rfl | inBucket
  · exact issued
  · exact settled.bucket value (Option.mem_toList.mp (List.mem_of_mem_filter inBucket))

/-- A part is found in a hash, or the texts among which it is searched ascend. -/
def OrderedAt (heap : Heap σ) (container : Value) (part : String) : Prop :=
  (∃ index, heap.seekKey (heap.searched container part) part = .found index) ∨
    ((keysOf (heap.searched container part)).map heap.text).Pairwise (· ≤ ·)

/-- A walk that a reader can repeat after a write: no cell is looked at twice, what is searched is
settled, and a new pair has a place in the last hash. -/
structure Repeatable (heap : Heap σ) (current : Value) (parts : List String) : Prop where
  apart : (heap.passes current parts).Nodup
  settled : ∀ visit ∈ heap.visits current parts, heap.SettledAt visit.1 visit.2
  ordered : ∀ visit, (heap.visits current parts).getLast? = some visit →
    heap.OrderedAt visit.1 visit.2

/-- The searched pairs are none, or those of an ordered bucket. -/
theorem TablesOrdered.searched (ordered : heap.TablesOrdered) (container : Value) (part : String) :
    heap.searched container part = [] ∨
      ∃ slots slot, heap.OrderedBucket slots slot (heap.searched container part) := by
  cases isTable : heap.table? container with
  | none => exact .inl (by rw [Heap.searched, bucketFor?, isTable]; rfl)
  | some content =>
      rw [Heap.searched, bucketFor?_of_table? isTable]
      cases place : content.buckets[Text.bucketOf part content.buckets.length]? with
      | none => exact .inl rfl
      | some bucket =>
          rcases (ordered isTable).bucket place with rfl | ⟨items, array, inOrder⟩
          · exact .inl rfl
          · have there : heap.items? bucket = some items := by
              rw [items?, array]
              rfl
            rw [Option.bind_some, there, Option.getD_some]
            exact .inr ⟨_, _, inOrder⟩

/-- Where the counts are right and the hashes are in order, only the containers have to differ. -/
theorem Sound.repeatable {held : Multiset Value} (sound : heap.Sound held)
    (ordered : heap.TablesOrdered) (apart : (heap.passes current parts).Nodup) :
    heap.Repeatable current parts where
  apart := apart
  settled := by
    intro visit _
    refine ⟨fun bucket found => ?_, fun key member => ⟨?_, ?_⟩⟩
    · obtain ⟨content, isTable, place⟩ := Option.bind_eq_some_iff.mp found
      exact sound.issued_bucket isTable (List.mem_of_getElem? place)
    · obtain ⟨bucket, child⟩ := exists_holder_of_mem_searched (mem_of_mem_keysOf member)
      exact sound.issued_child child
    · rcases ordered.searched visit.1 visit.2 with empty | ⟨slots, slot, inOrder⟩
      · rw [empty] at member
        contradiction
      · exact inOrder.fixed key member
  ordered := by
    intro visit _
    right
    rcases ordered.searched visit.1 visit.2 with empty | ⟨slots, slot, inOrder⟩
    · rw [empty]
      exact .nil
    · exact inOrder.ascending.imp fun less => Std.le_of_lt less

/-! ## What a write leaves to a reader -/

/-- Of the cells that were there, some containers were written. -/
structure Overwrites (cells : Set Value) (heap heap' : Heap σ) : Prop where
  alters : Alters cells heap heap'
  kind : ∀ {value}, heap.Issued value → heap'.kind value = heap.kind value
  multi : ∀ {value}, heap.Issued value → value ∈ cells → (heap.kind value).isMulti = true

/-- Settled texts stay.  The text of a program does not show what is written in it. -/
theorem Overwrites.text (writes : Overwrites cells heap heap') {key : Value}
    (issued : heap.Issued key) (fixed : (heap.kind key).hasFixedText = true) :
    heap'.text key = heap.text key := by
  apply text_congr fixed
  by_cases written : key ∈ cells
  · have multi := writes.multi issued written
    have program : heap.kind key = .program := by
      cases form : heap.kind key <;> simp_all [Kind.hasFixedText, Kind.isMulti]
    exact .inr ⟨program, (writes.kind issued).trans program⟩
  · exact .inl (writes.alters.payload issued written)

theorem Overwrites.map_text (writes : Overwrites cells heap heap')
    (settled : heap.SettledAt container part) :
    (keysOf (heap.searched container part)).map heap'.text =
      (keysOf (heap.searched container part)).map heap.text :=
  List.map_congr_left fun key member =>
    writes.text (settled.keys key member).1 (settled.keys key member).2

/-- What is under a part stays where nothing that is looked at was written. -/
theorem Overwrites.childAt (writes : Overwrites cells heap heap') (issued : heap.Issued container)
    (settled : heap.SettledAt container part)
    (outside : ∀ cell ∈ heap.passesAt container part, cell ∉ cells) :
    heap'.childAt container part = heap.childAt container part := by
  have same := writes.alters.payload issued (outside container List.mem_cons_self)
  have sameBucket : heap'.bucketFor? container part = heap.bucketFor? container part := by
    rw [bucketFor?, table?, same, bucketFor?, table?]
  have searched : heap'.searched container part = heap.searched container part := by
    rw [Heap.searched, sameBucket, Heap.searched]
    cases found : heap.bucketFor? container part with
    | none => rfl
    | some bucket =>
        by_cases absent : bucket = .null
        · rw [absent]
          rfl
        · have apart : bucket ∉ cells := outside bucket (by simp [passesAt, found, absent])
          rw [Option.bind_some, Option.bind_some,
            writes.alters.items? (settled.bucket bucket found) apart]
  have sought : heap'.seekKey (heap.searched container part) part =
      heap.seekKey (heap.searched container part) part :=
    seekKey_congr (writes.map_text settled) part
  have items : heap'.items? container = heap.items? container := by
    rw [Heap.items?, same, Heap.items?]
  rw [Heap.childAt, writes.kind issued, Heap.childAt]
  simp only [getText_eq, searched, sought, getItem, items]

/-- What is written of the cells that were there is among those that are looked at. -/
theorem Puts.exists_cells (puts : Puts searching heap heap' container part stored answer) :
    ∃ cells, Alters cells heap heap' ∧ ∀ {value}, heap.Issued value → value ∈ cells →
      value ∈ heap.passesAt container part ∧ (heap.kind value).isMulti = true := by
  cases puts with
  | item found _ _ alters =>
      refine ⟨_, alters, ?_⟩
      rintro _ - rfl
      exact ⟨List.mem_cons_self, isMulti_of_items? found⟩
  | replaced found place there _ _ _ alters =>
      refine ⟨_, alters, ?_⟩
      rintro _ - rfl
      refine ⟨?_, isMulti_of_items? there⟩
      simp [passesAt, bucketFor?_of_table? found, place, ne_null_of_items? there]
  | @inserted content slot bucket _ before after found isSlot bucketFor _ _ _ _ there' alters =>
      refine ⟨_, alters, ?_⟩
      rintro _ issued (rfl | rfl)
      · exact ⟨List.mem_cons_self, by rw [kind_of_table? found]; rfl⟩
      · generalize before ++ after = items at bucketFor
        cases bucketFor with
        | made fresh => exact absurd issued fresh
        | there place there =>
            have same := bucketsOf_of_items? place there
            rw [same] at place isSlot
            refine ⟨?_, isMulti_of_items? there⟩
            simp [passesAt, bucketFor?_of_table? found, ← isSlot, place, ne_null_of_items? there]

/-- A walk with a landing goes through some containers to the landing.  A reader that finds the same
there comes to the landing as well. -/
theorem exists_way (found : heap.landing? current parts = some landing) :
    ∃ front, heap.visits current parts = front ++ [(landing.site, landing.part)] ∧
      (∀ visit ∈ front, heap.isLive visit.1 = true) ∧
      ∀ {heap' : Heap σ}, (∀ visit ∈ front, heap'.kind visit.1 = heap.kind visit.1 ∧
          heap'.childAt visit.1 visit.2 = heap.childAt visit.1 visit.2) →
        heap'.follow current parts =
          heap'.follow landing.site (landing.part :: landing.missing) := by
  induction parts generalizing current with
  | nil => contradiction
  | cons part rest inductionHypothesis =>
      obtain ⟨place, ⟨lands, rfl⟩ | ⟨more, further⟩⟩ := landing?_cases found
      · refine ⟨[], ?_, by simp, fun _ => rfl⟩
        rw [visits, if_pos lands]
        rfl
      · obtain ⟨front, whole, live, reads⟩ := inductionHypothesis further
        refine ⟨(current, part) :: front, ?_, ?_, fun same => ?_⟩
        · rw [visits, if_neg more, whole]
          rfl
        · exact List.forall_mem_cons.mpr ⟨isLive_of_hasPlaceFor place, live⟩
        · obtain ⟨⟨kind, child⟩, same⟩ := List.forall_mem_cons.mp same
          rw [follow, kind, if_pos (isMulti_of_hasPlaceFor place), child, reads same]

/-! ## In the container of the write -/

/-- The answer of a write is what was there. -/
theorem Puts.answer_eq (puts : Puts heap heap heap' container part stored answer) :
    answer = heap.childAt container part := by
  cases puts with
  | item found position =>
      rw [childAt_of_items? found]
      simp only [getItem, found, position]
  | replaced found place there sought =>
      rw [childAt_of_table? found, searched_of_items? found place there, sought]
      simp
  | inserted found isSlot bucketFor sought =>
      subst isSlot
      rw [childAt_of_table? found, bucketFor.searched_eq found, sought]

/-- A position means the same in a list that was padded up to it. -/
theorem position?_padded {index : Nat} {offset : Int}
    (position : position? items.length offset = some index) (element : Value) :
    position? ((padded (index + 1) items).set index element).length offset = some index := by
  rw [List.length_set, length_padded]
  by_cases negative : offset < 0
  · have inside := position?_lt_length negative position
    rwa [max_eq_left (by omega)]
  · rw [position?, if_pos (by omega)] at position ⊢
    exact position

theorem keysOf_pair {before : List Value} (even : before.length % 2 = 0) (key value : Value)
    (after : List Value) :
    keysOf (before ++ key :: value :: after) = keysOf before ++ key :: keysOf after := by
  rw [keysOf_append even]
  rfl

/-- A pair that was found begins at an even place. -/
theorem even_of_seekKey_found {index : Nat} (sought : heap.seekKey items part = .found index) :
    index % 2 = 0 := by
  rw [seekKey_eq_seek] at sought
  cases answered : Records.seek ((keysOf items).map heap.text) 1 (Ord.compare · part) with
  | missing place =>
      rw [answered] at sought
      contradiction
  | found place =>
      rw [answered] at sought
      have doubled := Seek.found.inj sought
      omega

/-- A pair that was missing has its place between the keys below and those above, if the keys
ascend. -/
theorem lt_of_seekKey_missing {before after : List Value}
    (ascending : ((keysOf (before ++ after)).map heap.text).Pairwise (· ≤ ·))
    (sought : heap.seekKey (before ++ after) part = .missing before.length) :
    before.length % 2 = 0 ∧ (∀ other ∈ (keysOf before).map heap.text, other < part) ∧
      ∀ other ∈ (keysOf after).map heap.text, part < other := by
  rw [seekKey_eq_seek] at sought
  cases answered : Records.seek ((keysOf (before ++ after)).map heap.text) 1
      (Ord.compare · part) with
  | found place =>
      rw [answered] at sought
      contradiction
  | missing place =>
      rw [answered] at sought
      have doubled := Seek.missing.inj sought
      have even : before.length % 2 = 0 := by omega
      obtain ⟨below, above⟩ := Records.lt_of_seek_missing ascending answered
      have length : ((keysOf before).map heap.text).length = place := by
        rw [List.length_map, length_keysOf]
        omega
      rw [keysOf_append even, List.map_append] at below above
      rw [List.take_left' length] at below
      rw [List.drop_left' length] at above
      exact ⟨even, below, above⟩

/-- The texts among which a new key is found. -/
theorem seekKey_inserted {before after : List Value} {name : Value}
    (even : before.length % 2 = 0) (named : heap.text name = part)
    (below : ∀ other ∈ (keysOf before).map heap.text, other < part)
    (above : ∀ other ∈ (keysOf after).map heap.text, part < other) (value : Value) :
    heap.seekKey (before ++ name :: value :: after) part = .found before.length := by
  have cut : Records.CutAt ((keysOf (before ++ name :: value :: after)).map heap.text)
      (Ord.compare · part) ((keysOf before).map heap.text) part ((keysOf after).map heap.text) :=
    { whole := by rw [keysOf_pair even, List.map_append, List.map_cons, named]
      matching := Std.compare_eq_iff_eq.mpr rfl
      below := fun other member => compare_eq_lt_iff.mpr (below other member)
      notBelow := fun other member less =>
        absurd (String.lt_trans (compare_eq_lt_iff.mp less) (above other member))
          (String.lt_irrefl _) }
  rw [seekKey_eq_seek, cut.seek, List.length_map, length_keysOf, ofKeys]
  congr 1
  omega

/-- What was put under a part is found under it, where the keys show the texts that they showed. -/
theorem Puts.childAt_eq_of_map_text (puts : Puts heap heap heap' container part stored answer)
    (texts : (keysOf (heap.searched container part)).map heap'.text =
      (keysOf (heap.searched container part)).map heap.text)
    (ordered : heap.OrderedAt container part) : heap'.childAt container part = stored := by
  cases puts with
  | item found position found' =>
      rw [childAt_of_items? found']
      simp only [getItem, found', position?_padded position]
      rw [List.getElem?_set_self (by rw [length_padded]; omega), Option.getD_some]
  | @replaced content bucket key old before after found place there sought found' there' =>
      have even := even_of_seekKey_found sought
      have sought' : heap'.seekKey (before ++ key :: stored :: after) part =
          .found before.length := by
        rw [searched_of_items? found place there] at texts
        rw [seekKey_congr _ part, sought]
        rw [keysOf_pair even, ← keysOf_pair even key answer, texts]
      rw [childAt_of_table? found', searched_of_items? found' place there', sought']
      simp
  | @inserted content slot bucket name before after found isSlot bucketFor sought fresh named found'
      there' =>
      subst isSlot
      rw [OrderedAt, bucketFor.searched_eq found] at ordered
      rw [bucketFor.searched_eq found] at texts
      have ascending : ((keysOf (before ++ after)).map heap.text).Pairwise (· ≤ ·) := by
        refine ordered.resolve_left ?_
        rintro ⟨index, found⟩
        rw [sought] at found
        contradiction
      obtain ⟨even, below, above⟩ := lt_of_seekKey_missing ascending sought
      rw [keysOf_append even, List.map_append, List.map_append] at texts
      obtain ⟨front, back⟩ := List.append_inj texts (by simp)
      have sought' := seekKey_inserted even (text_of_payload_text named) (front.symm ▸ below)
        (back.symm ▸ above) stored
      have inside := Text.bucketOf_lt part
        (List.length_pos_of_ne_nil (heap.bucketsOf_ne_nil content))
      have searched' : heap'.searched container part = before ++ name :: stored :: after := by
        refine searched_of_items? found' ?_ there'
        dsimp only
        rw [List.length_set, List.getElem?_set_self inside]
      rw [childAt_of_table? found', searched', sought']
      simp

theorem Puts.childAt_eq (puts : Puts heap heap heap' container part stored answer)
    (writes : Overwrites cells heap heap') (settled : heap.SettledAt container part)
    (ordered : heap.OrderedAt container part) : heap'.childAt container part = stored :=
  puts.childAt_eq_of_map_text (writes.map_text settled) ordered

/-! ## Through the new hashes -/

/-- Under its only part a new hash has its only value. -/
theorem HoldsOnly.childAt_eq (holds : HoldsOnly older heap table part value) :
    heap.childAt table part = value := by
  obtain ⟨count, bucket, name, positive, -, -, named, there, isTable⟩ := holds.pair
  have inside : Text.bucketOf part count < (List.replicate count Value.null).length := by
    rw [List.length_replicate]
    exact Text.bucketOf_lt part positive
  have searched : heap.searched table part = [name, value] := by
    refine searched_of_items? isTable ?_ there
    dsimp only
    rw [List.length_set, List.length_replicate, List.getElem?_set_self inside]
  have sought : heap.seekKey ([] ++ [name, value]) part = .found 0 :=
    seekKey_inserted rfl (text_of_payload_text named) (by simp [keysOf, pairUp])
      (by simp [keysOf, pairUp]) value
  rw [List.nil_append] at sought
  rw [childAt_of_table? isTable, searched, sought]
  rfl

/-- A reader follows the new hashes to the stored value. -/
theorem Chain.follow_eq (chain : Chain older heap stored top missing) :
    heap.follow top missing = stored := by
  induction chain with
  | last => rfl
  | link holds below inductionHypothesis =>
      obtain ⟨count, bucket, name, -, -, -, -, -, isTable⟩ := holds.pair
      rw [follow, kind_of_table? isTable, if_pos (by rfl), holds.childAt_eq, inductionHypothesis]

/-! ## Writing and reading -/

/-- The answer of a write is what a reader would have found. -/
theorem Writes.answer_eq (writes : heap.Writes heap' landing value stored answer)
    (found : heap.landing? current parts = some landing) : answer = heap.follow current parts := by
  obtain ⟨top, old, -, puts, answered⟩ := writes.puts
  rw [follow_of_landing? found, answered]
  by_cases last : landing.missing = []
  · rw [if_pos last, if_pos last]
    rw [Landing.source, if_pos last] at puts
    exact puts.answer_eq
  · rw [if_neg last, if_neg last]

/-- A reader that repeats the walk of a write finds what was stored. -/
theorem Writes.follow_eq (writes : heap.Writes heap' landing value stored answer)
    (consistent : heap.Consistent) (found : heap.landing? current parts = some landing)
    (kind : ∀ {value}, heap.Issued value → heap'.kind value = heap.kind value)
    (repeatable : heap.Repeatable current parts) : heap'.follow current parts = stored := by
  obtain ⟨top, old, chain, puts, -⟩ := writes.puts
  obtain ⟨front, whole, live, reads⟩ := exists_way found
  obtain ⟨cells, alters, within⟩ := puts.exists_cells
  have overwrites : Overwrites cells heap heap' :=
    ⟨alters, kind, fun issued written => (within issued written).2⟩
  have settled := repeatable.settled
  rw [whole] at settled
  have apart := repeatable.apart
  rw [passes, whole, List.flatMap_append, List.flatMap_singleton, List.nodup_append] at apart
  obtain ⟨-, -, apart⟩ := apart
  have settledSite : heap.SettledAt landing.site landing.part :=
    settled (landing.site, landing.part) (by simp)
  have orderedSite : heap.OrderedAt landing.site landing.part :=
    repeatable.ordered (landing.site, landing.part) (by simp [whole])
  -- The search of the write may have been made with one hash more, which changes no settled text.
  have putting : Puts heap heap heap' landing.site landing.part top old := by
    apply puts.inSource
    intro key member
    obtain ⟨issued, fixed⟩ := settledSite.keys key member
    unfold Landing.source
    split
    next => rfl
    next =>
      have making : Alters ∅ heap heap.hash.2 := .create consistent _
      exact (text_congr fixed (.inl (making.payload issued (Set.notMem_empty _)))).symm
  have child := putting.childAt_eq overwrites settledSite orderedSite
  have isSite := consistent.issued (isLive_site found)
  have multi := isMulti_of_hasPlaceFor (hasPlaceFor_site found)
  rw [reads, follow, kind isSite, if_pos multi, child, chain.follow_eq]
  intro visit member
  have issued := consistent.issued (live visit member)
  have settledVisit := settled visit (by simp [member])
  refine ⟨kind issued, overwrites.childAt issued settledVisit fun cell looked written => ?_⟩
  have inFront : cell ∈ front.flatMap fun visit => heap.passesAt visit.1 visit.2 :=
    List.mem_flatMap.mpr ⟨visit, member, looked⟩
  exact apart cell inFront cell (within (settledVisit.issued issued looked) written).1 rfl

/-- A write at a path leaves the kinds of what is there. -/
theorem kind_setPath (proper : heap.Proper False) {root path : Value}
    (done : heap.setPath root path value = .ok (answer, heap'))
    (live : ∀ {value}, heap.Issued value → heap'.isLive value = heap.isLive value)
    (issued : heap.Issued current) : heap'.kind current = heap.kind current := by
  have leads : Leads False 0 heap heap' := .setPath proper (Nat.zero_le _) done
  obtain ⟨made, trace⟩ := leads.trace
  cases present : heap'.isLive current with
  | true => exact trace.kind_eq proper.toConsistent issued present
  | false =>
      have gone := (live issued).symm.trans present
      rw [kind, payload_of_not_isLive present, kind, payload_of_not_isLive gone]

/-- A path that is a text keeps its parts. -/
theorem pathParts_of_text (overwrites : Overwrites cells heap heap') (consistent : heap.Consistent)
    {path : Value} (isText : heap.kind path = .text) :
    heap'.pathParts path = heap.pathParts path := by
  have issued : heap.Issued path :=
    consistent.issued (isLive_of_kind_ne (by rw [isText]; decide))
  have single : ∀ {heap : Heap σ}, heap.kind path = .text → heap.items? path = none := by
    intro heap isText
    cases found : heap.items? path with
    | none => rfl
    | some items =>
        have multi := isMulti_of_items? found
        rw [isText] at multi
        contradiction
  rw [pathParts, single ((overwrites.kind issued).trans isText), pathParts, single isText]
  dsimp only
  rw [overwrites.text issued (by rw [isText]; rfl)]

/-- The longest list for which a write at a path may need room.  Without a landing it needs none. -/
def pathRoom (heap : Heap σ) (root path : Value) : Nat :=
  ((heap.landing? root (heap.pathParts path)).map fun landing => landing.room heap).getD 0

/-- In every run, what a write at a path answers is what a reader finds at the path just before the
write.  A text that is a path has the same parts after the write.  If something was stored, the path
has the same parts after the write and the reader can repeat the walk, then the reader finds what
was stored: the value itself, or the copy that was made of a scratch value. -/
theorem Runs.getPath_after_setPath {config : Config} (runs : Runs False (.new config) heap)
    (root path value : Value) (nonempty : heap.pathParts path ≠ []) :
    EndsWithin (heap.pathRoom root path) (heap.setPath root path value) fun result =>
      result.1 = heap.getPath root path ∧
      (heap.kind path = .text → result.2.pathParts path = heap.pathParts path) ∧
      (heap.kind root ≠ .null → ¬heap.Blocked root (heap.pathParts path) →
        result.2.pathParts path = heap.pathParts path →
        heap.Repeatable root (heap.pathParts path) →
        ∃ landing stored, heap.landing? root (heap.pathParts path) = some landing ∧
          heap.Writes result.2 landing value stored result.1 ∧ StoredAs value stored ∧
          result.2.getPath root path = stored) := by
  have proper := runs.proper_new
  cases found : heap.landing? root (heap.pathParts path) with
  | none =>
      rw [setPath_of_landing?_eq_none found]
      refine .ended ⟨(follow_of_landing?_eq_none found nonempty).symm, fun _ => rfl,
        fun present free => ?_⟩
      rcases landing?_eq_none_iff.mp found with empty | absent | blocked
      · exact absurd empty nonempty
      · exact absurd absent present
      · exact absurd blocked free
  | some landing =>
      rw [pathRoom, found]
      apply (ends_setPath proper found value).attach.mono
      rintro ⟨answer, heap'⟩ ⟨done, -, stored, writes⟩
      obtain ⟨top, old, chain, puts, -⟩ := writes.puts
      obtain ⟨cells, alters, within⟩ := puts.exists_cells
      have kinds : ∀ {value}, heap.Issued value → heap'.kind value = heap.kind value :=
        kind_setPath proper done alters.live
      have overwrites : Overwrites cells heap heap' :=
        ⟨alters, kinds, fun issued written => (within issued written).2⟩
      refine ⟨writes.answer_eq found, pathParts_of_text overwrites proper.toConsistent,
        fun _ _ same repeatable => ⟨landing, stored, rfl, writes, writes.owns.storedAs, ?_⟩⟩
      rw [getPath, same]
      exact writes.follow_eq proper.toConsistent found kinds repeatable

/-- On the shelf, the walk through the list looks at the hash, at its bucket and at the list. -/
theorem repeatable_shelf :
    shelf.Repeatable (.cell ⟨0, 0⟩) ["list", "2", "x", "y"] := by
  have visited : shelf.visits (.cell ⟨0, 0⟩) ["list", "2", "x", "y"] =
      [(.cell ⟨0, 0⟩, "list"), (.cell ⟨2, 0⟩, "2")] := by
    decide +kernel
  have bucket : shelf.bucketFor? (.cell ⟨0, 0⟩) "list" = some (.cell ⟨3, 0⟩) := by decide +kernel
  have noBucket : shelf.bucketFor? (.cell ⟨2, 0⟩) "2" = none := by decide +kernel
  have keys : keysOf (shelf.searched (.cell ⟨0, 0⟩) "list") = [.cell ⟨4, 0⟩] := by decide +kernel
  have noKeys : keysOf (shelf.searched (.cell ⟨2, 0⟩) "2") = [] := by decide +kernel
  have consistent := runs_shelf.proper_new.toConsistent
  refine ⟨by decide +kernel, ?_, ?_⟩
  · rw [visited, List.forall_mem_cons, List.forall_mem_singleton]
    refine ⟨⟨fun other found => ?_, fun key member => ?_⟩, ⟨fun other found => ?_, ?_⟩⟩
    · obtain rfl := Option.some.inj (bucket.symm.trans found)
      exact consistent.issued (by decide +kernel)
    · rw [keys] at member
      obtain rfl := List.mem_singleton.mp member
      exact ⟨consistent.issued (by decide +kernel), by decide +kernel⟩
    · exact absurd (noBucket.symm.trans found) (Option.some_ne_none _).symm
    · rw [noKeys]
      exact List.forall_mem_nil _
  · rw [visited]
    intro visit same
    obtain rfl : (.cell ⟨2, 0⟩, "2") = visit := Option.some.inj same
    right
    rw [noKeys]
    exact .nil

theorem shelf_read_after_write :
    ∃ answer heap', shelf.setPath (.cell ⟨0, 0⟩) (.scratch ⟨2, 2⟩) (.cell ⟨1, 0⟩) =
        .ok (answer, heap') ∧
      answer = shelf.getPath (.cell ⟨0, 0⟩) (.scratch ⟨2, 2⟩) ∧
      heap'.getPath (.cell ⟨0, 0⟩) (.scratch ⟨2, 2⟩) = .cell ⟨1, 0⟩ := by
  have ends := runs_shelf.getPath_after_setPath (.cell ⟨0, 0⟩) (.scratch ⟨2, 2⟩) (.cell ⟨1, 0⟩)
    (by rw [pathParts_shelf]; exact List.cons_ne_nil _ _)
  have room : shelf.pathRoom (.cell ⟨0, 0⟩) (.scratch ⟨2, 2⟩) ≤ elementLimit := by
    rw [pathRoom, landing?_shelf]
    decide +kernel
  obtain ⟨⟨answer, heap'⟩, done, answered, keeps, reads⟩ := ends.exists_ok room
  obtain ⟨landing, stored, -, -, stores, found⟩ := reads (by decide +kernel)
    (not_blocked_of_landing? landing?_shelf) (keeps (by decide +kernel))
    (pathParts_shelf ▸ repeatable_shelf)
  exact ⟨answer, heap', done, answered, by rw [found, stores.2 rfl]⟩

/-- A hash with a key that names no cell yet: the next but one that is made. -/
def handForging : List (Request .bare) :=
  [.hash, .int 7, .string "0", .setKey (.cell ⟨0, 0⟩) (.cell ⟨4, 0⟩) .null]

theorem isSome_handForging :
    ((new { hashBuckets := 1 }).performAll? handForging).isSome = true := by
  decide +kernel

def handForged : Heap .bare :=
  ((new { hashBuckets := 1 }).performAll? handForging).get isSome_handForging

/-- A hash with five keys in one bucket, of which the second was replaced by hand. -/
def disordering : List (Request .bare) :=
  [.hash, .int 7, .string "m", .string "z",
    .string "a", .setKey (.cell ⟨0, 0⟩) (.cell ⟨4, 0⟩) .null,
    .string "b", .setKey (.cell ⟨0, 0⟩) (.cell ⟨6, 0⟩) .null,
    .string "c", .setKey (.cell ⟨0, 0⟩) (.cell ⟨7, 0⟩) .null,
    .string "x", .setKey (.cell ⟨0, 0⟩) (.cell ⟨8, 0⟩) .null,
    .string "y", .setKey (.cell ⟨0, 0⟩) (.cell ⟨9, 0⟩) .null,
    .setItem (.cell ⟨5, 0⟩) (.cell ⟨3, 0⟩) 2]

theorem isSome_disordering :
    ((new { hashBuckets := 1 }).performAll? disordering).isSome = true := by
  decide +kernel

def disordered : Heap .bare :=
  ((new { hashBuckets := 1 }).performAll? disordering).get isSome_disordering

/-- What is found at a path after a value was stored at it. -/
def readBack (heap : Heap σ) (root path value : Value) : Option Value :=
  (heap.setPath root path value).toOption.map fun result => result.2.getPath root path

/-- A key that is issued by the write itself gets the text of the part, and hides the new pair.
Where the texts of the keys do not ascend, the new pair is put where it is not searched. -/
theorem hidden_after_write :
    (handForged.kind (.cell ⟨2, 0⟩) = .text ∧
      handForged.pathParts (.cell ⟨2, 0⟩) = ["0"] ∧
      handForged.landing? (.cell ⟨0, 0⟩) ["0"] = some ⟨.cell ⟨0, 0⟩, "0", []⟩ ∧
      (handForged.passes (.cell ⟨0, 0⟩) ["0"]).Nodup ∧
      (∀ visit ∈ handForged.visits (.cell ⟨0, 0⟩) ["0"],
        ∀ key ∈ keysOf (handForged.searched visit.1 visit.2),
          (handForged.kind key).hasFixedText = true) ∧
      handForged.readBack (.cell ⟨0, 0⟩) (.cell ⟨2, 0⟩) (.cell ⟨1, 0⟩) = some .null) ∧
    disordered.kind (.cell ⟨2, 0⟩) = .text ∧
      disordered.pathParts (.cell ⟨2, 0⟩) = ["m"] ∧
      disordered.landing? (.cell ⟨0, 0⟩) ["m"] = some ⟨.cell ⟨0, 0⟩, "m", []⟩ ∧
      (disordered.passes (.cell ⟨0, 0⟩) ["m"]).Nodup ∧
      (∀ visit ∈ disordered.visits (.cell ⟨0, 0⟩) ["m"],
        ∀ key ∈ keysOf (disordered.searched visit.1 visit.2),
          (disordered.kind key).hasFixedText = true) ∧
      disordered.readBack (.cell ⟨0, 0⟩) (.cell ⟨2, 0⟩) (.cell ⟨1, 0⟩) = some .null := by
  decide +kernel

end Heap

end CountedHeap
