import CountedHeap.Proofs.PathReads

/-!
Contract: what a write under one text leaves under the other texts of a hash.

The hash may have been put together by hand: one array may be the bucket of several slots, a slot
may name the array that the write makes, texts may be repeated, and the pairs may be in another
bucket than that of their text.  It only has to be settled what its keys show, and the texts have to
ascend among the pairs that are searched.

Owns:
- `Filed`, the hashes of which this holds, and that those of careful programs are among them;
- the value under a text as a lookup among the searched pairs;
- `Reshelves`, the searched pairs before and after a write, and what follows for every text.

Does not own: what is stored.
-/

namespace CountedHeap.Heap

variable {σ : Signature} {heap heap' : Heap σ} {cells : Set Value}
  {table bucket key value old stored answer : Value} {items items' before after : List Value}
  {content : HashTable} {part text : String}

/-! ## Looking up -/

/-- The value under a text, if there is one: the first of the searched pairs with this text. -/
def valueAt? (heap : Heap σ) (table : Value) (text : String) : Option Value :=
  (heap.named (pairUp (heap.searched table text))).lookup text

theorem map_named (items : List Value) :
    (heap.named (pairUp items)).map (·.1) = (keysOf items).map heap.text := by
  rw [named, keysOf, List.map_map, List.map_map]
  rfl

/-- The key of a pair that was found shows the text. -/
theorem text_of_seekKey_found
    (sought : heap.seekKey (before ++ key :: after) text = .found before.length) :
    heap.text key = text := by
  obtain ⟨item, there, equal⟩ := Records.exists_of_seek sought
  rw [List.getElem?_append_right le_rfl, Nat.sub_self, List.getElem?_cons_zero] at there
  obtain rfl := Option.some.inj there
  exact Std.compare_eq_iff_eq.mp equal

/-- In ascending texts a search finds the first pair with a text, or there is none. -/
theorem seekKey_of_ascending (ascending : ((keysOf items).map heap.text).Pairwise (· ≤ ·))
    (text : String) :
    (∃ before key value after, items = before ++ key :: value :: after ∧
      before.length % 2 = 0 ∧ heap.text key = text ∧ text ∉ (keysOf before).map heap.text ∧
      heap.seekKey items text = .found before.length) ∨
    text ∉ (keysOf items).map heap.text ∧ ∃ index, heap.seekKey items text = .missing index := by
  cases sought : heap.seekKey items text with
  | found index =>
      left
      obtain ⟨before, key, value, after, rfl, rfl⟩ :=
        exists_pair_at (Records.lt_length_of_seek_found sought)
      have even := even_of_seekKey_found sought
      have named := text_of_seekKey_found sought
      refine ⟨before, key, value, after, rfl, even, named, ?_, rfl⟩
      rw [keysOf_pair even, List.map_append, List.map_cons, named] at ascending
      -- Cut at its first occurrence, the text is where the search finds it.
      obtain ⟨front, back, whole, new⟩ := List.eq_append_cons_of_mem
        (List.mem_append_right ((keysOf before).map heap.text)
          (List.mem_cons_self : text ∈ text :: (keysOf after).map heap.text))
      have ascending' := whole ▸ ascending
      obtain ⟨-, behind, across⟩ := List.pairwise_append.mp ascending'
      have cut : Records.CutAt ((keysOf before).map heap.text ++ text ::
          (keysOf after).map heap.text) (Ord.compare · text) front text back :=
        { whole := whole
          matching := Std.compare_eq_iff_eq.mpr rfl
          below := fun other member => by
            have different : other ≠ text := fun same => new (same ▸ member)
            exact compare_eq_lt_iff.mpr
              (Std.lt_of_le_of_ne (across other member text List.mem_cons_self) different)
          notBelow := fun other member less => Std.not_lt_of_ge
            (List.rel_of_pairwise_cons behind member) (compare_eq_lt_iff.mp less) }
      rw [seekKey_eq_seek, keysOf_pair even, List.map_append, List.map_cons, named, cut.seek,
        ofKeys] at sought
      have place := Seek.found.inj sought
      have length : front.length = ((keysOf before).map heap.text).length := by
        rw [List.length_map, length_keysOf]
        omega
      rwa [List.append_inj_left whole length.symm]
  | missing index =>
      right
      refine ⟨fun member => ?_, index, rfl⟩
      obtain ⟨before, after, rfl, rfl⟩ := exists_cut_at (Records.le_length_of_seek_missing sought)
      obtain ⟨even, below, above⟩ := lt_of_seekKey_missing ascending sought
      rw [keysOf_append even, List.map_append, List.mem_append] at member
      rcases member with inFront | inBack
      · exact String.lt_irrefl _ (below text inFront)
      · exact String.lt_irrefl _ (above text inBack)

/-- A search among ascending texts is a lookup. -/
theorem seekKey_searched
    (ascending : ((keysOf (heap.searched table text)).map heap.text).Pairwise (· ≤ ·)) :
    (∃ index, heap.seekKey (heap.searched table text) text = .found index ∧
      heap.valueAt? table text = some ((heap.searched table text)[index + 1]?.getD .null)) ∨
    ∃ index, heap.seekKey (heap.searched table text) text = .missing index ∧
      heap.valueAt? table text = none := by
  rcases seekKey_of_ascending ascending text with
    ⟨before, key, value, after, whole, even, named, first, sought⟩ | ⟨absent, index, sought⟩
  · refine .inl ⟨before.length, sought, ?_⟩
    rw [← map_named] at first
    rw [valueAt?, whole, named_pairUp_cons even, List.lookup_append, named,
      lookup_eq_none_iff_not_mem.mpr first, List.lookup_cons_self]
    simp
  · refine .inr ⟨index, sought, ?_⟩
    rwa [valueAt?, lookup_eq_none_iff_not_mem, map_named]

theorem getText_eq_valueAt?
    (ascending : ((keysOf (heap.searched table text)).map heap.text).Pairwise (· ≤ ·)) :
    heap.getText table text = (heap.valueAt? table text).getD .null := by
  rw [getText_eq]
  rcases seekKey_searched ascending with ⟨index, sought, found⟩ | ⟨index, sought, absent⟩
  · rw [sought, found, Option.getD_some]
  · rw [sought, absent, Option.getD_none]

/-- Whether a text is located says the search among its pairs. -/
theorem isSome_locate?_eq (heap : Heap σ) (table : Value) (text : String) :
    (heap.locate? table text).isSome =
      match heap.seekKey (heap.searched table text) text with
      | .found _ => true
      | .missing _ => false := by
  unfold locate? searched bucketFor?
  cases heap.table? table with
  | none => simp [seekKey_nil]
  | some content =>
      dsimp only [Option.bind_some]
      cases content.buckets[Text.bucketOf text content.buckets.length]? with
      | none => simp [seekKey_nil]
      | some bucket =>
          dsimp only [Option.bind_some]
          cases heap.items? bucket with
          | none => simp [seekKey_nil]
          | some items =>
              dsimp only [Option.getD_some]
              cases heap.seekKey items text <;> rfl

theorem isSome_locate?_eq_valueAt?
    (ascending : ((keysOf (heap.searched table text)).map heap.text).Pairwise (· ≤ ·)) :
    (heap.locate? table text).isSome = (heap.valueAt? table text).isSome := by
  rw [isSome_locate?_eq]
  rcases seekKey_searched ascending with ⟨index, sought, found⟩ | ⟨index, sought, absent⟩
  · rw [sought, found]
    rfl
  · rw [sought, absent]
    rfl

/-! ## What a lookup depends on -/

theorem bucketFor?_congr (same : heap'.payload table = heap.payload table) (text : String) :
    heap'.bucketFor? table text = heap.bucketFor? table text := by
  rw [bucketFor?, table?, same, bucketFor?, table?]

theorem searched_congr (same : heap'.bucketFor? table text = heap.bucketFor? table text)
    (buckets : ∀ bucket, heap.bucketFor? table text = some bucket →
      heap'.items? bucket = heap.items? bucket) :
    heap'.searched table text = heap.searched table text := by
  rw [searched, same, searched]
  cases found : heap.bucketFor? table text with
  | none => rfl
  | some bucket => rw [Option.bind_some, Option.bind_some, buckets bucket found]

theorem named_pairUp_congr (texts : ∀ key ∈ keysOf items, heap'.text key = heap.text key) :
    heap'.named (pairUp items) = heap.named (pairUp items) := by
  refine List.map_congr_left fun pair inside => ?_
  rw [texts pair.1 (List.mem_map_of_mem inside)]

/-- Two heaps in which a hash has the same pairs with the same texts. -/
structure SameTable (heap heap' : Heap σ) (table : Value) : Prop where
  table? : heap'.table? table = heap.table? table
  searched : ∀ text, heap'.searched table text = heap.searched table text
  texts : ∀ text, ∀ key ∈ keysOf (heap.searched table text), heap'.text key = heap.text key

namespace SameTable

theorem seekKey_eq (same : SameTable heap heap' table) (text : String) :
    heap'.seekKey (heap'.searched table text) text =
      heap.seekKey (heap.searched table text) text := by
  rw [same.searched, seekKey_congr (List.map_congr_left (same.texts text))]

theorem valueAt?_eq (same : SameTable heap heap' table) (text : String) :
    heap'.valueAt? table text = heap.valueAt? table text := by
  rw [valueAt?, same.searched, named_pairUp_congr (same.texts text), valueAt?]

theorem getText_eq (same : SameTable heap heap' table) (text : String) :
    heap'.getText table text = heap.getText table text := by
  rw [Heap.getText_eq, same.seekKey_eq, same.searched, Heap.getText_eq]

theorem isSome_locate?_eq (same : SameTable heap heap' table) (text : String) :
    (heap'.locate? table text).isSome = (heap.locate? table text).isSome := by
  rw [Heap.isSome_locate?_eq, same.seekKey_eq, Heap.isSome_locate?_eq]

theorem pairCount_eq (same : SameTable heap heap' table) :
    heap'.pairCount table = heap.pairCount table := by
  rw [pairCount, same.table?, pairCount]

end SameTable

/-! ## Filed hashes -/

theorem items?_of_not_issued (consistent : heap.Consistent) (fresh : ¬heap.Issued value) :
    heap.items? value = none :=
  Option.eq_none_iff_forall_not_mem.mpr fun _ there =>
    fresh (consistent.issued (isLive_of_items? there))

/-- What is not written has the items that it had, if it is no array that was made. -/
theorem Alters.items?_eq (alters : Alters cells heap heap') (consistent : heap.Consistent)
    (outside : value ∉ cells) (plain : heap.items? value = none → heap'.items? value = none) :
    heap'.items? value = heap.items? value := by
  by_cases issued : heap.Issued value
  · exact alters.items? issued outside
  · have none := items?_of_not_issued consistent issued
    rw [none, plain none]

/-- A hash with keys that were made before, whose texts are settled and ascend among the pairs that
are searched for a text. -/
structure Filed (heap : Heap σ) (table : Value) : Prop where
  keys : ∀ text, ∀ key ∈ keysOf (heap.searched table text),
    heap.Issued key ∧ (heap.kind key).hasFixedText = true
  ascending : ∀ text, ((keysOf (heap.searched table text)).map heap.text).Pairwise (· ≤ ·)

/-- Where the counts are right and the hashes are in order, every hash is filed and holds values
that were made before. -/
theorem Sound.filed {held : Multiset Value} (sound : heap.Sound held)
    (ordered : heap.TablesOrdered) (table : Value) :
    heap.Filed table ∧ ∀ text, heap.Issued (heap.getText table text) := by
  refine ⟨⟨fun text key member => ⟨?_, ?_⟩, fun text => ?_⟩, fun text => ?_⟩
  · obtain ⟨bucket, child⟩ := exists_holder_of_mem_searched (mem_of_mem_keysOf member)
    exact sound.issued_child child
  · rcases ordered.searched table text with empty | ⟨slots, slot, inOrder⟩
    · rw [empty] at member
      contradiction
    · exact inOrder.fixed key member
  · rcases ordered.searched table text with empty | ⟨slots, slot, inOrder⟩
    · rw [empty]
      exact .nil
    · exact inOrder.ascending.imp fun less => Std.le_of_lt less
  · rw [getText_eq]
    split
    next index _ =>
      cases found : (heap.searched table text)[index + 1]? with
      | none => exact trivial
      | some value =>
          obtain ⟨bucket, child⟩ := exists_holder_of_mem_searched (List.mem_of_getElem? found)
          exact sound.issued_child child
    next => exact trivial

namespace Filed

theorem getText_eq (filed : heap.Filed table) (text : String) :
    heap.getText table text = (heap.valueAt? table text).getD .null :=
  getText_eq_valueAt? (filed.ascending text)

theorem isSome_locate? (filed : heap.Filed table) (text : String) :
    (heap.locate? table text).isSome = (heap.valueAt? table text).isSome :=
  isSome_locate?_eq_valueAt? (filed.ascending text)

/-- A hash is the same where the table, the arrays of its buckets and their keys are. -/
theorem sameTable (filed : heap.Filed table) (same : heap'.payload table = heap.payload table)
    (buckets : ∀ text bucket, heap.bucketFor? table text = some bucket →
      heap'.items? bucket = heap.items? bucket)
    (keys : ∀ text, ∀ key ∈ keysOf (heap.searched table text),
      heap'.payload key = heap.payload key) : SameTable heap heap' table where
  table? := by rw [Heap.table?, same, Heap.table?]
  searched := fun text => searched_congr (bucketFor?_congr same text) (buckets text)
  texts := fun text key member =>
    text_congr (filed.keys text key member).2 (.inl (keys text key member))

/-- The keys show the texts that they showed. -/
theorem texts (filed : heap.Filed table) (writes : Overwrites cells heap heap') (text : String) :
    ∀ key ∈ keysOf (heap.searched table text), heap'.text key = heap.text key :=
  fun key member => writes.text (filed.keys text key member).1 (filed.keys text key member).2

/-- Cells that are made change nothing of a hash, if none of them is an array. -/
theorem afterMaking (filed : heap.Filed table) (consistent : heap.Consistent)
    (making : Alters ∅ heap heap')
    (plain : ∀ {value}, heap.items? value = none → heap'.items? value = none)
    (issued : heap.Issued table) : heap'.Filed table ∧ SameTable heap heap' table := by
  have payload : ∀ {value}, heap.Issued value → heap'.payload value = heap.payload value :=
    fun issued => making.payload issued (Set.notMem_empty _)
  have same : SameTable heap heap' table := by
    apply filed.sameTable (payload issued)
    · intro text bucket place
      exact making.items?_eq consistent (Set.notMem_empty _) plain
    · intro text key member
      exact payload (filed.keys text key member).1
  refine ⟨⟨fun text key member => ?_, fun text => ?_⟩, same⟩
  · rw [same.searched] at member
    obtain ⟨issuedKey, fixed⟩ := filed.keys text key member
    rw [kind, payload issuedKey, ← kind]
    exact ⟨making.issued issuedKey, fixed⟩
  · rw [same.searched, List.map_congr_left (same.texts text)]
    exact filed.ascending text

end Filed

/-! ## Before and after a write -/

/-- The searched pairs of a text before and after something was put under a text, the same one or
another: they are the same, or the value of a pair with the text of the write is replaced, or a pair
with a new key is inserted at the place of this text. -/
inductive Reshelves (heap heap' : Heap σ) (part : String) (stored : Value) :
    List Value → List Value → Prop
  | kept {items : List Value} : Reshelves heap heap' part stored items items
  | replaced {before after : List Value} {key old : Value} (even : before.length % 2 = 0)
      (named : heap.text key = part) :
      Reshelves heap heap' part stored (before ++ key :: old :: after)
        (before ++ key :: stored :: after)
  | inserted {before after : List Value} {key : Value} (even : before.length % 2 = 0)
      (below : ∀ other ∈ (keysOf before).map heap.text, other < part)
      (above : ∀ other ∈ (keysOf after).map heap.text, part < other)
      (fresh : ¬heap.Issued key) (named : heap'.payload key = .text part) :
      Reshelves heap heap' part stored (before ++ after) (before ++ key :: stored :: after)

namespace Reshelves

theorem length_le (reshelves : Reshelves heap heap' part stored items items') :
    items'.length ≤ items.length + 2 := by
  cases reshelves with
  | kept => omega
  | replaced =>
      simp only [List.length_append, List.length_cons]
      omega
  | inserted =>
      simp only [List.length_append, List.length_cons]
      omega

/-- A key was there, or it is the new one. -/
theorem mem_keysOf (reshelves : Reshelves heap heap' part stored items items')
    (member : key ∈ keysOf items') :
    key ∈ keysOf items ∨ ¬heap.Issued key ∧ heap'.payload key = .text part := by
  cases reshelves with
  | kept => exact .inl member
  | replaced even named =>
      rw [keysOf_pair even] at member ⊢
      exact .inl member
  | inserted even below above fresh named =>
      rw [keysOf_pair even, List.mem_append, List.mem_cons] at member
      rw [keysOf_append even, List.mem_append]
      rcases member with inFront | rfl | inBack
      · exact .inl (.inl inFront)
      · exact .inr ⟨fresh, named⟩
      · exact .inl (.inr inBack)

/-- The keys of the pairs around a place. -/
theorem texts_around (even : before.length % 2 = 0)
    (texts : ∀ key ∈ keysOf (before ++ after), heap'.text key = heap.text key) :
    (∀ key ∈ keysOf before, heap'.text key = heap.text key) ∧
      ∀ key ∈ keysOf after, heap'.text key = heap.text key := by
  rw [keysOf_append even, List.forall_mem_append] at texts
  exact texts

/-- The texts go on to ascend. -/
theorem ascending (reshelves : Reshelves heap heap' part stored items items')
    (texts : ∀ key ∈ keysOf items, heap'.text key = heap.text key)
    (ascends : ((keysOf items).map heap.text).Pairwise (· ≤ ·)) :
    ((keysOf items').map heap'.text).Pairwise (· ≤ ·) := by
  have same := List.map_congr_left texts
  cases reshelves with
  | kept => rwa [same]
  | @replaced before after key old even named =>
      have keys : keysOf (before ++ key :: stored :: after) =
          keysOf (before ++ key :: old :: after) := by
        rw [keysOf_pair even, keysOf_pair even]
      rwa [keys, same]
  | inserted even below above fresh named =>
      obtain ⟨front, back⟩ := texts_around even texts
      rw [keysOf_append even, List.map_append, List.pairwise_append] at ascends
      obtain ⟨ascendsFront, ascendsBack, across⟩ := ascends
      rw [keysOf_pair even, List.map_append, List.map_cons, text_of_payload_text named,
        List.map_congr_left front, List.map_congr_left back]
      refine List.pairwise_append.mpr ⟨ascendsFront, List.pairwise_cons.mpr
        ⟨fun other member => Std.le_of_lt (above other member), ascendsBack⟩,
        fun other inFront => ?_⟩
      intro behind inBack
      rcases List.mem_cons.mp inBack with rfl | inBack
      · exact Std.le_of_lt (below other inFront)
      · exact across other inFront behind inBack

/-- Another text has the value that it had. -/
theorem lookup_eq (reshelves : Reshelves heap heap' part stored items items')
    (texts : ∀ key ∈ keysOf items, heap'.text key = heap.text key) (other : text ≠ part) :
    (heap'.named (pairUp items')).lookup text = (heap.named (pairUp items)).lookup text := by
  cases reshelves with
  | kept => rw [named_pairUp_congr texts]
  | @replaced before after key old even named =>
      obtain ⟨front, back⟩ := texts_around even texts
      have rest : ∀ key ∈ keysOf after, heap'.text key = heap.text key := fun key member =>
        back key (List.mem_cons_of_mem _ member)
      have named' : heap'.text key = part := (back key List.mem_cons_self).trans named
      rw [named_pairUp_cons even, named_pairUp_cons even, named, named', named_pairUp_congr front,
        named_pairUp_congr rest]
      simp only [List.lookup_append, List.lookup_cons, beq_eq_false_iff_ne.mpr other]
  | inserted even below above fresh named =>
      obtain ⟨front, back⟩ := texts_around even texts
      rw [named_pairUp_cons even, named_pairUp_append even, text_of_payload_text named,
        named_pairUp_congr front, named_pairUp_congr back]
      simp only [List.lookup_append, List.lookup_cons, beq_eq_false_iff_ne.mpr other]

end Reshelves

/-! ## Writes under a text -/

/-- Nothing becomes an array but perhaps the bucket of a text. -/
def ShelvesOnly (heap heap' : Heap σ) (table : Value) (part : String) : Prop :=
  ∀ {value}, heap'.bucketFor? table part ≠ some value →
    heap.items? value = none → heap'.items? value = none

theorem searched_of_bucketFor? (place : heap.bucketFor? table text = some bucket)
    (there : heap.items? bucket = some items) : heap.searched table text = items := by
  rw [searched, place, Option.bind_some, there, Option.getD_some]

/-- The buckets of a table are those that it gets, or it has none. -/
theorem bucketFor?_eq_bucketsOf (isTable : heap.table? table = some content)
    (present : content.buckets ≠ []) (text : String) :
    heap.bucketFor? table text =
      (heap.bucketsOf content)[Text.bucketOf text (heap.bucketsOf content).length]? := by
  rw [bucketFor?_of_table? isTable, bucketsOf_of_ne_nil present]

theorem searched_of_no_buckets (isTable : heap.table? table = some content)
    (none : content.buckets = []) (text : String) : heap.searched table text = [] := by
  rw [searched, bucketFor?_of_table? isTable, none]
  rfl

/-- Of the buckets that a table gets when it had none, all are absent. -/
theorem eq_null_of_mem_bucketsOf (none : content.buckets = [])
    (member : bucket ∈ heap.bucketsOf content) : bucket = .null := by
  rw [bucketsOf, none] at member
  exact List.eq_of_mem_replicate member

namespace Puts

/-- The value of a pair was replaced. -/
theorem reshelves_replaced {key old : Value} {before after : List Value}
    (consistent : heap.Consistent) (found : heap.table? table = some content)
    (place : content.buckets[Text.bucketOf part content.buckets.length]? = some bucket)
    (there : heap.items? bucket = some (before ++ key :: old :: after))
    (sought : heap.seekKey (before ++ key :: old :: after) part = .found before.length)
    (found' : heap'.table? table = some content)
    (there' : heap'.items? bucket = some (before ++ key :: stored :: after))
    (alters : Alters {bucket} heap heap') (shelves : ShelvesOnly heap heap' table part)
    (text : String) :
    Reshelves heap heap' part stored (heap.searched table text) (heap'.searched table text) := by
  have sameBucket : heap'.bucketFor? table text = heap.bucketFor? table text := by
    rw [bucketFor?_of_table? found', bucketFor?_of_table? found]
  by_cases here : heap.bucketFor? table text = some bucket
  · rw [searched_of_bucketFor? here there, searched_of_bucketFor? (sameBucket.trans here) there']
    exact .replaced (even_of_seekKey_found sought) (text_of_seekKey_found sought)
  · have same : heap'.searched table text = heap.searched table text := by
      apply searched_congr sameBucket
      intro other isOther
      have apart : other ≠ bucket := fun equal => here (equal ▸ isOther)
      refine alters.items?_eq consistent apart (shelves fun isBucket => ?_)
      rw [bucketFor?_of_table? found', place] at isBucket
      exact apart (Option.some.inj isBucket).symm
    rw [same]
    exact .kept

/-- A pair was inserted, perhaps into an array that is the bucket of other texts as well. -/
theorem reshelves_inserted {slot : Nat} {name : Value} {before after : List Value}
    (consistent : heap.Consistent) (filed : heap.Filed table)
    (found : heap.table? table = some content)
    (isSlot : slot = Text.bucketOf part (heap.bucketsOf content).length)
    (bucketFor : heap.BucketFor (heap.bucketsOf content) slot bucket (before ++ after))
    (sought : heap.seekKey (before ++ after) part = .missing before.length)
    (fresh : ¬heap.Issued name) (named : heap'.payload name = .text part)
    (found' : heap'.table? table =
      some { buckets := (heap.bucketsOf content).set slot bucket, pairs := content.pairs + 1 })
    (there' : heap'.items? bucket = some (before ++ name :: stored :: after))
    (alters : Alters {table, bucket} heap heap') (shelves : ShelvesOnly heap heap' table part)
    (text : String) :
    Reshelves heap heap' part stored (heap.searched table text) (heap'.searched table text) := by
  have places : ∀ text, heap'.bucketFor? table text =
      ((heap.bucketsOf content).set slot bucket)[
        Text.bucketOf text (heap.bucketsOf content).length]? := by
    intro text
    rw [bucketFor?_of_table? found', List.length_set]
  have place' := places text
  have present := ne_null_of_items? there'
  have inside : slot < (heap.bucketsOf content).length := by
    rw [isSlot]
    exact Text.bucketOf_lt _ (List.length_pos_of_ne_nil (bucketsOf_ne_nil _))
  by_cases sameSlot : slot = Text.bucketOf text (heap.bucketsOf content).length
  · -- The slot of the text is the one that was written.
    rw [← sameSlot, List.getElem?_set_self inside] at place'
    have ascending := filed.ascending part
    have searched : ∀ other, slot = Text.bucketOf other (heap.bucketsOf content).length →
        heap.searched table other = before ++ after := by
      rintro other rfl
      exact bucketFor.searched_eq found
    rw [searched part isSlot] at ascending
    obtain ⟨even, below, above⟩ := lt_of_seekKey_missing ascending sought
    rw [searched text sameSlot, searched_of_bucketFor? place' there']
    exact .inserted even below above fresh named
  · rw [List.getElem?_set_ne sameSlot] at place'
    by_cases none : content.buckets = []
    · have nothing : heap'.searched table text = [] := by
        rw [searched, place']
        cases other : (heap.bucketsOf content)[
            Text.bucketOf text (heap.bucketsOf content).length]? with
        | none => rfl
        | some bucket =>
            rw [eq_null_of_mem_bucketsOf none (List.mem_of_getElem? other)]
            rfl
      rw [nothing, searched_of_no_buckets found none]
      exact .kept
    · have sameBucket := place'.trans (bucketFor?_eq_bucketsOf found none text).symm
      by_cases here : heap.bucketFor? table text = some bucket
      · -- The array is the bucket of both slots.
        generalize whole : before ++ after = items at bucketFor sought
        cases bucketFor with
        | made unmade =>
            -- The slot of the text has named the array before it was made.
            obtain ⟨rfl, rfl⟩ := List.append_eq_nil_iff.mp whole
            have nothing : heap.searched table text = [] ++ [] := by
              rw [searched, here, Option.bind_some, items?_of_not_issued consistent unmade]
              rfl
            rw [nothing, searched_of_bucketFor? (sameBucket.trans here) there']
            exact .inserted rfl (by simp [keysOf, pairUp]) (by simp [keysOf, pairUp]) fresh named
        | there place there =>
            subst whole
            have ascending := filed.ascending text
            rw [searched_of_bucketFor? here there] at ascending
            obtain ⟨even, below, above⟩ := lt_of_seekKey_missing ascending sought
            rw [searched_of_bucketFor? here there,
              searched_of_bucketFor? (sameBucket.trans here) there']
            exact .inserted even below above fresh named
      · have same : heap'.searched table text = heap.searched table text := by
          apply searched_congr sameBucket
          intro other isOther
          have apart : other ≠ bucket := fun equal => here (equal ▸ isOther)
          by_cases isTable : other = table
          · rw [isTable, Heap.items?, table?_eq_some_iff.mp found', Heap.items?,
              table?_eq_some_iff.mp found]
            rfl
          · refine alters.items?_eq consistent (not_or.mpr ⟨isTable, apart⟩)
              (shelves fun isBucket => ?_)
            rw [places part, ← isSlot, List.getElem?_set_self inside] at isBucket
            exact apart (Option.some.inj isBucket).symm
        rw [same]
        exact .kept

section

variable (puts : Puts heap heap heap' table part stored answer)
  (isTable : heap.table? table = some content)

include puts isTable

theorem reshelves (consistent : heap.Consistent) (filed : heap.Filed table)
    (shelves : ShelvesOnly heap heap' table part) (text : String) :
    Reshelves heap heap' part stored (heap.searched table text) (heap'.searched table text) := by
  cases puts with
  | item found => exact absurd rfl (ne_of_table?_of_items? isTable found)
  | replaced found place there sought found' there' alters =>
      exact reshelves_replaced consistent found place there sought found' there' alters shelves text
  | inserted found isSlot bucketFor sought fresh named found' there' alters =>
      exact reshelves_inserted consistent filed found isSlot bucketFor sought fresh named found'
        there' alters shelves text

/-- What was under the text of the write is answered. -/
theorem answer_eq_getText : answer = heap.getText table part := by
  have answered := puts.answer_eq
  rwa [childAt, kind_of_table? isTable] at answered

/-- The table counts one pair more if the text was new. -/
theorem pairCount_eq (filed : heap.Filed table) : heap'.pairCount table =
    heap.pairCount table + if (heap.valueAt? table part).isNone then 1 else 0 := by
  have searching := seekKey_searched (filed.ascending part)
  cases puts with
  | item found => exact absurd rfl (ne_of_table?_of_items? isTable found)
  | replaced found place there sought found' there' alters =>
      rw [searched_of_items? found place there, sought] at searching
      rcases searching with ⟨_, -, present⟩ | ⟨_, missed, -⟩
      · rw [pairCount, found', pairCount, found, present]
        rfl
      · contradiction
  | inserted found isSlot bucketFor sought fresh named found' there' alters =>
      subst isSlot
      rw [bucketFor.searched_eq found, sought] at searching
      rcases searching with ⟨_, matched, -⟩ | ⟨_, -, absent⟩
      · contradiction
      · rw [pairCount, found', pairCount, found, absent]
        rfl

/-- The table has buckets. -/
theorem exists_buckets :
    ∃ content', heap'.table? table = some content' ∧ content'.buckets ≠ [] := by
  cases puts with
  | item found => exact absurd rfl (ne_of_table?_of_items? isTable found)
  | replaced found place there sought found' there' alters =>
      refine ⟨_, found', fun none => ?_⟩
      rw [none] at place
      contradiction
  | @inserted content slot bucket _ _ _ found isSlot bucketFor sought fresh named found' there'
      alters =>
      refine ⟨_, found', fun none => ?_⟩
      have length : ((heap.bucketsOf content).set slot bucket).length =
          (heap.bucketsOf content).length := List.length_set
      dsimp only at none
      rw [none] at length
      exact bucketsOf_ne_nil content (List.length_eq_zero_iff.mp length.symm)

/-- Of what was there, the same cells may be written later on: the table and its buckets. -/
theorem mem_storeCells (issued : heap.Issued value) (present : value ≠ .null)
    (member : value ∈ heap'.storeCells table) : value ∈ heap.storeCells table := by
  rcases member with rfl | ⟨-, child⟩
  · exact .inl rfl
  · cases puts with
    | item found => exact absurd rfl (ne_of_table?_of_items? isTable found)
    | replaced found place there sought found' there' alters =>
        rw [children_of_table? found', ← children_of_table? found] at child
        exact .inr ⟨kind_of_table? isTable, child⟩
    | @inserted content _ _ _ _ _ found isSlot bucketFor sought fresh named found' there' alters =>
        rw [children_of_table? found'] at child
        rcases List.mem_or_eq_of_mem_set child with old | rfl
        · refine .inr ⟨kind_of_table? isTable, ?_⟩
          rw [children_of_table? found]
          by_cases none : content.buckets = []
          · exact absurd (eq_null_of_mem_bucketsOf none old) present
          · rwa [bucketsOf_of_ne_nil none] at old
        · exact bucketFor.mem_storeCells found present issued (.inr rfl)

/-- Under the text of the write is what was stored. -/
theorem getText_eq (filed : heap.Filed table) (writes : Overwrites cells heap heap') :
    heap'.getText table part = stored := by
  have read := puts.childAt_eq_of_map_text (List.map_congr_left (filed.texts writes part))
    (.inr (filed.ascending part))
  obtain ⟨content', found', -⟩ := puts.exists_buckets isTable
  rwa [childAt, kind_of_table? found'] at read

variable (consistent : heap.Consistent) (filed : heap.Filed table)
  (shelves : ShelvesOnly heap heap' table part) (writes : Overwrites cells heap heap')

include consistent filed shelves writes

/-- The hash is filed after the write. -/
theorem keeps_filed : heap'.Filed table where
  keys := fun text key member => by
    rcases (puts.reshelves isTable consistent filed shelves text).mem_keysOf member with
      old | ⟨-, named⟩
    · obtain ⟨issued, fixed⟩ := filed.keys text key old
      rw [writes.kind issued]
      exact ⟨writes.alters.issued issued, fixed⟩
    · refine ⟨writes.alters.consistent.issued (isLive_of_payload_text named), ?_⟩
      rw [kind, named]
      rfl
  ascending := fun text =>
    (puts.reshelves isTable consistent filed shelves text).ascending (filed.texts writes text)
      (filed.ascending text)

/-- Every other text has the value that it had. -/
theorem valueAt?_eq (other : text ≠ part) : heap'.valueAt? table text = heap.valueAt? table text :=
  (puts.reshelves isTable consistent filed shelves text).lookup_eq (filed.texts writes text) other

end

end Puts

end CountedHeap.Heap
