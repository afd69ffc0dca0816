import CountedHeap.Proofs.Layout
import CountedHeap.Proofs.ListView
import CountedHeap.Proofs.Scopes
import CountedHeap.Proofs.TableMap

/-!
Contract: the order of a walk over a hash.

A walk shows what a hash holds and nothing of how it came to hold it: tables that were never used,
emptied or filled in another order are walked alike once they hold the same.

Owns:
- the cursor of a walk after so many steps, and what is left of the walk there;
- the order of the entries of an ordered table, and that the contents settle it;
- the texts of hashes with the same entries;
- `WalkedInOrder`, what every way to walk a hash shows of it.
-/

namespace CountedHeap

variable {σ : Signature}

namespace Heap

variable {heap : Heap σ} {held : Multiset Value} {table other : Value} {content : HashTable}

/-! ## Steps of a walk -/

/-- Of two entries in a table with `slots` buckets the first is walked before the second. -/
def Precedes (slots : Nat) (first second : String × Value) : Prop :=
  Text.bucketOf first.1 slots < Text.bucketOf second.1 slots ∨
    Text.bucketOf first.1 slots = Text.bucketOf second.1 slots ∧ first.1 < second.1

theorem Precedes.asymm {slots : Nat} {first second : String × Value}
    (precedes : Precedes slots first second) : ¬Precedes slots second first := by
  rintro (less' | ⟨same', less'⟩)
  · rcases precedes with less | ⟨same, -⟩ <;> omega
  · rcases precedes with less | ⟨-, less⟩
    · omega
    · exact String.lt_asymm less less'

/-- The keys in an ordered table have texts that cannot change. -/
theorem OrderedTable.hasFixedText (ordered : heap.OrderedTable content)
    (found : heap.table? table = some content) {pair : Value × Value}
    (member : pair ∈ heap.pairs table) : (heap.kind pair.1).hasFixedText = true := by
  rw [Heap.pairs, found] at member
  obtain ⟨bucket, isBucket, inside⟩ := List.mem_flatMap.mp member
  obtain ⟨slot, place⟩ := List.mem_iff_getElem?.mp isBucket
  rcases ordered.bucket place with rfl | ⟨items, payload, inOrder⟩
  · exact absurd inside List.not_mem_nil
  · rw [bucketPairs_of_payload payload] at inside
    exact inOrder.fixed pair.1 (List.mem_map_of_mem inside)

theorem OrderedTable.pairwise_bucketEntries (ordered : heap.OrderedTable content) {bucket : Value}
    (member : bucket ∈ content.buckets) :
    (heap.bucketEntries bucket).Pairwise (Precedes content.buckets.length) := by
  obtain ⟨slot, place⟩ := List.mem_iff_getElem?.mp member
  rcases ordered.bucket place with rfl | ⟨items, payload, inOrder⟩
  · exact .nil
  · have ascending := inOrder.ascending
    rw [← texts_of_payload payload, List.pairwise_map] at ascending
    refine ascending.imp_of_mem fun {first second} firstMember secondMember less => .inr ⟨?_, less⟩
    rw [ordered.placed place (List.mem_map_of_mem firstMember),
      ordered.placed place (List.mem_map_of_mem secondMember)]

theorem OrderedTable.pairwise_entries (ordered : heap.OrderedTable content)
    (found : heap.table? table = some content) :
    (heap.entries table).Pairwise (Precedes content.buckets.length) := by
  rw [entries_eq_flatMap found, List.pairwise_flatMap]
  refine ⟨fun bucket member => ordered.pairwise_bucketEntries member, ?_⟩
  refine List.pairwise_iff_getElem.mpr fun slot slot' inside inside' less => ?_
  intro first firstMember second secondMember
  left
  rwa [ordered.placed (List.getElem?_eq_getElem inside) (List.mem_map_of_mem firstMember),
    ordered.placed (List.getElem?_eq_getElem inside') (List.mem_map_of_mem secondMember)]

theorem OrderedTable.mem_entries_iff (ordered : heap.OrderedTable content)
    (found : heap.table? table = some content) {text : String} {value : Value} :
    (text, value) ∈ heap.entries table ↔ (heap.entries table).lookup text = some value := by
  constructor
  · intro member
    obtain ⟨front, back, whole⟩ := List.append_of_mem member
    have distinct := ordered.nodup_entries found
    rw [whole] at distinct ⊢
    exact lookup_of_nodup distinct
  · intro looked
    obtain ⟨front, back, whole, -⟩ := List.lookup_eq_some_iff.mp looked
    rw [whole]
    exact List.mem_append_right front List.mem_cons_self

/-- Lookups settle which entries there are, and ordered tables of one heap that are not empty have
as many buckets. -/
theorem OrderedTable.entries_eq {content' : HashTable} (ordered : heap.OrderedTable content)
    (ordered' : heap.OrderedTable content') (found : heap.table? table = some content)
    (found' : heap.table? other = some content')
    (same : ∀ text, (heap.entries table).lookup text = (heap.entries other).lookup text) :
    heap.entries table = heap.entries other := by
  have members : ∀ entry, entry ∈ heap.entries table ↔ entry ∈ heap.entries other := by
    rintro ⟨text, value⟩
    rw [ordered.mem_entries_iff found, ordered'.mem_entries_iff found', same]
  have perm : (heap.entries table).Perm (heap.entries other) :=
    (List.perm_ext_iff_of_nodup (ordered.nodup_entries found).of_map
      (ordered'.nodup_entries found').of_map).mpr members
  have empty : ∀ {table content}, heap.table? table = some content → content.buckets = [] →
      heap.entries table = [] := by
    intro table content found none
    rw [entries_eq_flatMap found, none]
    rfl
  rcases ordered.length with none | slots
  · rw [empty found none] at perm ⊢
    exact perm.symm.eq_nil.symm
  rcases ordered'.length with none' | slots'
  · rw [empty found' none'] at perm ⊢
    exact perm.eq_nil
  have before := ordered.pairwise_entries found
  have before' := ordered'.pairwise_entries found'
  rw [slots] at before
  rw [slots'] at before'
  exact perm.eq_of_pairwise (fun _ _ _ _ first second => absurd second first.asymm) before before'

/-- Two hashes that hold the same values under the same texts. -/
def SameContents (heap : Heap σ) (table other : Value) : Prop :=
  ∀ text, (heap.locate? table text).isSome = (heap.locate? other text).isSome ∧
    heap.getText table text = heap.getText other text

/-- Ordered tables hold the same just when they have the same entries in the same order. -/
theorem OrderedTable.sameContents_iff {content' : HashTable} (ordered : heap.OrderedTable content)
    (ordered' : heap.OrderedTable content') (found : heap.table? table = some content)
    (found' : heap.table? other = some content') :
    heap.SameContents table other ↔ heap.entries table = heap.entries other := by
  simp only [SameContents, ordered.isSome_locate? found, ordered'.isSome_locate? found',
    ordered.getText_eq found, ordered'.getText_eq found']
  constructor
  · intro same
    apply ordered.entries_eq ordered' found found'
    intro text
    obtain ⟨present, value⟩ := same text
    cases looked : (heap.entries table).lookup text <;>
      cases looked' : (heap.entries other).lookup text <;> simp_all
  · intro same text
    rw [same]
    exact ⟨rfl, rfl⟩

/-! ## The texts of hashes -/

/-- The text of a value depends on the containers it is inside of only where it reaches them. -/
theorem textWithin_congr_enclosing {value : Value} {enclosing enclosing' : List Value}
    (same : ∀ inner, heap.Below value inner → (inner ∈ enclosing ↔ inner ∈ enclosing')) :
    heap.textWithin enclosing' value = heap.textWithin enclosing value := by
  have corresponds : Corresponds heap heap fun inner inner' =>
      inner' = inner ∧ inner ∈ {inner | heap.Below value inner} :=
    corresponds_of_kept (fun _ => rfl) fun below member => .tail below member
  apply corresponds.textWithin_eq ⟨rfl, .refl⟩
  rintro _ inner ⟨rfl, below⟩ -
  exact same inner below

/-- The text of a hash with settled keys, from which it is not reached again, is put together from
its entries. -/
theorem OrderedTable.text_eq (ordered : heap.OrderedTable content)
    (found : heap.table? table = some content)
    (apart : ∀ entry ∈ heap.entries table, ¬heap.Below entry.2 table) :
    heap.text table = "\x7b" ++ ",".intercalate
      ((heap.entries table).map fun entry => entry.1 ++ ":" ++ heap.text entry.2) ++ "\x7d" := by
  rw [text, textWithin_of_hash (table?_eq_some_iff.mp found), if_neg List.not_mem_nil, entries,
    named, List.map_map]
  congr 3
  apply List.map_congr_left
  intro pair member
  have keyText : heap.textWithin [table] pair.1 = heap.text pair.1 := by
    have fixed := ordered.hasFixedText found member
    rw [text, textWithin_of_fixed fixed, textWithin_of_fixed fixed]
  have valueText : heap.textWithin [table] pair.2 = heap.text pair.2 := by
    apply textWithin_congr_enclosing
    intro inner below
    simp only [List.mem_singleton, List.not_mem_nil, false_iff]
    rintro rfl
    exact apart (heap.text pair.1, pair.2) (List.mem_map_of_mem member) below
  rw [keyText, valueText]
  rfl

theorem OrderedTable.complete (ordered : heap.OrderedTable content)
    (found : heap.table? table = some content) (text : String) (value : Value) :
    (text, value) ∈ heap.entries table ↔
      (heap.locate? table text).isSome = true ∧ heap.getText table text = value := by
  rw [ordered.mem_entries_iff found, ordered.isSome_locate? found, ordered.getText_eq found]
  cases (heap.entries table).lookup text <;> simp

theorem OrderedTable.ascending (ordered : heap.OrderedTable content)
    (found : heap.table? table = some content) :
    (heap.pairs table).Pairwise fun first second => ∃ slot slot',
      heap.bucketIndex? table first.1 = some slot ∧
        heap.bucketIndex? table second.1 = some slot' ∧
          (slot < slot' ∨
            slot = slot' ∧ Text.bytes (heap.text first.1) < Text.bytes (heap.text second.1)) := by
  have before := ordered.pairwise_entries found
  rw [entries, named, List.pairwise_map] at before
  refine before.imp_of_mem fun {first second} member _ precedes => ?_
  have nonempty : content.buckets.isEmpty = false := by
    rw [Heap.pairs, found] at member
    obtain ⟨bucket, isBucket, -⟩ := List.mem_flatMap.mp member
    rw [List.isEmpty_eq_false_iff]
    exact List.ne_nil_of_mem isBucket
  have index : ∀ key, heap.bucketIndex? table key =
      some (Text.bucketOf (heap.text key) content.buckets.length) := by
    intro key
    simp only [bucketIndex?, found, nonempty]
    rfl
  exact ⟨_, _, index first.1, index second.1,
    precedes.imp_right (And.imp_right Text.bytes_lt_bytes)⟩

end Heap

namespace Session

variable {config : Config} {session : Session σ} {table other : Value}

/-- A hash that is written as a map from texts to values: a program made it and keeps it, and
writes it only by storing and deleting keys, or it is careful with every hash. -/
def WrittenByKeys (config : Config) (table : Value) (session : Session σ) : Prop :=
  (∃ contents, Tracks config table session contents) ∨
    Reaches (fun session event => event.Careful session.heap) (.start config) session

theorem Tracks.represents {contents : Contents} (tracks : Tracks config table session contents) :
    ∃ leaked, session.Sound leaked ∧ session.heap.Represents table contents := by
  induction tracks with
  | hash reaches made =>
      obtain ⟨leaked, sound⟩ := reaches.sound (sound_start config)
      have making := Heap.Step.hash sound.heap
      have represents := Heap.represents_hash sound.heap
      rw [made] at making represents
      exact ⟨leaked, ⟨making.sound, sound.durable⟩, represents⟩
  | event _ respects moves kept inductionHypothesis =>
      obtain ⟨leaked, sound, represents⟩ := inductionHypothesis
      obtain ⟨leaked', outcome⟩ := moves.outcome sound
      exact ⟨leaked', outcome.sound, represents_after sound represents respects moves kept⟩

theorem Reaches.tablesOrdered
    (reaches : Reaches (fun session event => event.Careful session.heap) (.start config)
      session) :
    ∃ leaked, session.Sound leaked ∧ session.heap.TablesOrdered := by
  induction reaches with
  | refl => exact ⟨0, sound_start config, tablesOrdered_start config⟩
  | step _ careful moves inductionHypothesis =>
      obtain ⟨leaked, sound, ordered⟩ := inductionHypothesis
      obtain ⟨leaked', outcome⟩ := moves.outcome sound
      exact ⟨leaked', outcome.sound, outcome.tablesOrdered careful ordered⟩

/-- A hash that is written by keys is in order. -/
theorem WrittenByKeys.inOrder (written : session.WrittenByKeys config table) :
    ∃ leaked, session.Sound leaked ∧ session.heap.InOrder table := by
  rcases written with ⟨contents, tracks⟩ | careful
  · obtain ⟨leaked, sound, content, found, ordered, -⟩ := tracks.represents
    refine ⟨leaked, sound, fun {content'} found' => ?_⟩
    rw [found] at found'
    exact Option.some.inj found' ▸ ordered
  · obtain ⟨leaked, sound, ordered⟩ := careful.tablesOrdered
    exact ⟨leaked, sound, ordered⟩

/-- Hashes that are written by keys hold the same just when they have the same entries in the same
order. -/
theorem WrittenByKeys.sameContents_iff (written : session.WrittenByKeys config table)
    (written' : session.WrittenByKeys config other) (isHash : session.heap.kind table = .hash)
    (isHash' : session.heap.kind other = .hash) :
    session.heap.SameContents table other ↔
      session.heap.entries table = session.heap.entries other := by
  obtain ⟨-, -, inOrder⟩ := written.inOrder
  obtain ⟨-, -, inOrder'⟩ := written'.inOrder
  obtain ⟨content, found⟩ := Heap.exists_table?_of_kind isHash
  obtain ⟨content', found'⟩ := Heap.exists_table?_of_kind isHash'
  exact (inOrder found).sameContents_iff (inOrder' found') found found'

end Session

end CountedHeap
