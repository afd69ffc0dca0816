import CountedHeap.Proofs.Sound
import CountedHeap.Table.Basic
import Mathlib.Data.List.Forall2
import Mathlib.Data.Set.Insert

/-!
Contract: the representation of a hash.

A table without buckets has no pairs.  Otherwise it has the configured number of buckets, and
each is absent or an array in which keys and values alternate: the texts of the keys ascend,
and every one of them belongs to this bucket.  The keys are of kinds whose text cannot change.

Owns:
- the kinds whose text is settled by the cell alone;
- `OrderedBucket` and `OrderedTable`, and what carries them over to another heap;
- `TalliedTable`, which asks nothing of the keys;
- buckets as opposed to other arrays.
-/

namespace CountedHeap

/-- Whether the text of a value of this kind says nothing about other cells.  The text of a
program does not show its items. -/
def Kind.hasFixedText : Kind → Bool
  | .array | .hash => false
  | _ => true

/-- The text of a value whose text is settled by its payload. -/
def Payload.fixedText {σ : Signature} : Payload σ → String
  | .text characters => characters
  | .int number => Decimal.integerText number.toInt
  | .real number => Decimal.realText number
  | .exec _ => "<exec>"
  | .file path => "<file " ++ path ++ ">"
  | .program _ => "<program>"
  | .null | .array _ | .hash _ => ""

/-- The keys of a list in which keys and values alternate. -/
def keysOf (items : List Value) : List Value :=
  (pairUp items).map (·.1)

theorem length_keysOf (items : List Value) : (keysOf items).length = items.length / 2 := by
  rw [keysOf, List.length_map, length_pairUp]

/-- A list that does not begin with a pair has one item at most. -/
theorem eq_nil_or_singleton {items : List Value}
    (notPair : ∀ key value rest, items = key :: value :: rest → False) :
    items = [] ∨ ∃ item, items = [item] := by
  rcases items with _ | ⟨first, _ | ⟨second, rest⟩⟩
  · exact .inl rfl
  · exact .inr ⟨first, rfl⟩
  · exact absurd rfl (notPair first second rest)

theorem pairUp_append {before : List Value} (even : before.length % 2 = 0)
    (after : List Value) : pairUp (before ++ after) = pairUp before ++ pairUp after := by
  induction before using pairUp.induct with
  | case1 key value rest inductionHypothesis =>
      simp only [List.cons_append, pairUp, List.cons.injEq, true_and]
      exact inductionHypothesis (by simp only [List.length_cons] at even; omega)
  | case2 items notPair =>
      obtain rfl | ⟨item, rfl⟩ := eq_nil_or_singleton notPair
      · rfl
      · simp at even

theorem keysOf_append {before : List Value} (even : before.length % 2 = 0)
    (after : List Value) : keysOf (before ++ after) = keysOf before ++ keysOf after := by
  rw [keysOf, pairUp_append even, List.map_append]
  rfl

theorem mem_of_mem_pairUp {items : List Value} {pair : Value × Value}
    (member : pair ∈ pairUp items) : pair.1 ∈ items ∧ pair.2 ∈ items := by
  induction items using pairUp.induct with
  | case1 key value rest inductionHypothesis =>
      rcases List.mem_cons.mp member with rfl | later
      · simp
      · obtain ⟨first, second⟩ := inductionHypothesis later
        exact ⟨List.mem_cons_of_mem _ (List.mem_cons_of_mem _ first),
          List.mem_cons_of_mem _ (List.mem_cons_of_mem _ second)⟩
  | case2 items notPair =>
      obtain rfl | ⟨item, rfl⟩ := eq_nil_or_singleton notPair <;> simp [pairUp] at member

theorem mem_of_mem_keysOf {key : Value} {items : List Value} (member : key ∈ keysOf items) :
    key ∈ items := by
  obtain ⟨pair, inside, rfl⟩ := List.mem_map.mp member
  exact (mem_of_mem_pairUp inside).1

theorem forall₂_keysOf {relation : Value → Value → Prop} {items items' : List Value}
    (related : List.Forall₂ relation items items') :
    List.Forall₂ relation (keysOf items) (keysOf items') := by
  induction items using pairUp.induct generalizing items' with
  | case1 key value rest inductionHypothesis =>
      rcases related with _ | ⟨keys, _ | ⟨values, rests⟩⟩
      exact .cons keys (inductionHypothesis rests)
  | case2 items notPair =>
      obtain rfl | ⟨item, rfl⟩ := eq_nil_or_singleton notPair
      · cases related
        exact .nil
      · obtain _ | ⟨_, _ | _⟩ := related
        exact .nil

namespace Heap

variable {σ : Signature} {heap heap' : Heap σ}

/-! ## Texts that cannot change -/

theorem text_eq_fixedText {value : Value}
    (fixed : (heap.kind value).hasFixedText = true) :
    heap.text value = (heap.payload value).fixedText := by
  unfold kind at fixed
  unfold text textWithin
  cases content : heap.payload value <;>
    simp_all [Payload.kind, Kind.hasFixedText, Payload.fixedText]

theorem text_congr {value value' : Value} (fixed : (heap.kind value).hasFixedText = true)
    (same : heap'.payload value' = heap.payload value ∨
      heap.kind value = .program ∧ heap'.kind value' = .program) :
    heap'.text value' = heap.text value := by
  have sameKind : heap'.kind value' = heap.kind value := by
    rcases same with equal | ⟨program, program'⟩
    · rw [kind, equal, kind]
    · rw [program, program']
  rw [text_eq_fixedText fixed, text_eq_fixedText (sameKind ▸ fixed)]
  rcases same with equal | ⟨program, program'⟩
  · rw [equal]
  · unfold kind at program program'
    cases content : heap.payload value <;> simp_all [Payload.kind]
    cases content' : heap'.payload value' <;> simp_all [Payload.fixedText]

/-- A value of another heap that serves as well as a key. -/
def SameKey (heap heap' : Heap σ) (key key' : Value) : Prop :=
  (heap.kind key).hasFixedText = true →
    (heap'.kind key').hasFixedText = true ∧ heap'.text key' = heap.text key

theorem sameKey_of_payload {key key' : Value}
    (same : heap'.payload key' = heap.payload key) : SameKey heap heap' key key' := by
  intro fixed
  refine ⟨?_, text_congr fixed (.inl same)⟩
  rwa [kind, same]

theorem sameKey_of_multi {key key' : Value} (multi : (heap.kind key).isMulti = true)
    (same : heap'.kind key' = heap.kind key) : SameKey heap heap' key key' := by
  intro fixed
  have program : heap.kind key = .program := by
    cases form : heap.kind key <;> simp_all [Kind.hasFixedText, Kind.isMulti]
  exact ⟨by rwa [same], text_congr fixed (.inr ⟨program, same ▸ program⟩)⟩

theorem SameKey.trans {middle : Heap σ} {key key' key'' : Value}
    (first : SameKey heap middle key key') (second : SameKey middle heap' key' key'') :
    SameKey heap heap' key key'' := fun fixed => by
  obtain ⟨fixed', text⟩ := first fixed
  obtain ⟨fixed'', text'⟩ := second fixed'
  exact ⟨fixed'', text'.trans text⟩

/-! ## The representation -/

/-- What a bucket in a given slot of a table with `slots` buckets holds. -/
structure OrderedBucket (heap : Heap σ) (slots slot : Nat) (items : List Value) : Prop where
  even : items.length % 2 = 0
  fixed : ∀ key ∈ keysOf items, (heap.kind key).hasFixedText = true
  ascending : ((keysOf items).map heap.text).Pairwise (· < ·)
  placed : ∀ key ∈ keysOf items, Text.bucketOf (heap.text key) slots = slot

/-- What a table holds. -/
structure OrderedTable (heap : Heap σ) (content : HashTable) : Prop where
  length : content.buckets = [] ∨
    content.buckets.length = max heap.config.hashBuckets 1
  bucket : ∀ {slot bucket}, content.buckets[slot]? = some bucket →
    bucket = .null ∨ ∃ items, heap.payload bucket = .array items ∧
      heap.OrderedBucket content.buckets.length slot items
  pairs : content.pairs = (content.buckets.flatMap heap.bucketPairs).length

/-- A value that is no hash, or one that is in order. -/
def InOrder (heap : Heap σ) (table : Value) : Prop :=
  ∀ {content}, heap.table? table = some content → heap.OrderedTable content

/-- Every hash is in order. -/
def TablesOrdered (heap : Heap σ) : Prop :=
  ∀ {table}, heap.InOrder table

/-- Whether a value is the array of a bucket of a table. -/
def HasBucket (heap : Heap σ) (table value : Value) : Prop :=
  value ≠ .null ∧ ∃ content, heap.table? table = some content ∧ value ∈ content.buckets

/-- Whether a value is the array of a bucket. -/
def IsBucket (heap : Heap σ) (value : Value) : Prop :=
  ∃ table, heap.HasBucket table value

theorem orderedTable_empty : heap.OrderedTable {} where
  length := .inl rfl
  bucket := by simp
  pairs := rfl

/-- Keys that serve as well have the same texts, and these are settled too. -/
theorem map_text_of_sameKey {keys keys' : List Value}
    (fixed : ∀ key ∈ keys, (heap.kind key).hasFixedText = true)
    (same : List.Forall₂ (SameKey heap heap') keys keys') :
    keys'.map heap'.text = keys.map heap.text ∧
      ∀ key ∈ keys', (heap'.kind key).hasFixedText = true := by
  induction same with
  | nil => simp
  | cons head _ inductionHypothesis =>
      obtain ⟨headFixed, restFixed⟩ := List.forall_mem_cons.mp fixed
      obtain ⟨texts, restFixed'⟩ := inductionHypothesis restFixed
      obtain ⟨headFixed', text⟩ := head headFixed
      rw [List.map_cons, List.map_cons, text, texts]
      exact ⟨rfl, List.forall_mem_cons.mpr ⟨headFixed', restFixed'⟩⟩

theorem orderedBucket_nil {slots slot : Nat} : heap.OrderedBucket slots slot [] where
  even := rfl
  fixed := by simp [keysOf, pairUp]
  ascending := .nil
  placed := by simp [keysOf, pairUp]

theorem OrderedBucket.transport {slots slot : Nat} {items items' : List Value}
    (ordered : heap.OrderedBucket slots slot items)
    (same : List.Forall₂ (SameKey heap heap') items items') :
    heap'.OrderedBucket slots slot items' := by
  obtain ⟨texts, fixed⟩ := map_text_of_sameKey ordered.fixed (forall₂_keysOf same)
  refine ⟨?_, fixed, ?_, fun key member => ?_⟩
  · rw [← same.length_eq]
    exact ordered.even
  · rw [texts]
    exact ordered.ascending
  · have text : heap'.text key ∈ (keysOf items').map heap'.text := List.mem_map_of_mem member
    rw [texts] at text
    obtain ⟨before, beforeMember, equal⟩ := List.mem_map.mp text
    rw [← equal]
    exact ordered.placed before beforeMember

/-- A bucket of another heap that holds the same keys in the same places. -/
def SameBucket (heap heap' : Heap σ) (bucket bucket' : Value) : Prop :=
  bucket = .null ∧ (bucket' = .null ∨ heap'.payload bucket' = .array []) ∨
    ∃ items items', heap.payload bucket = .array items ∧ heap'.payload bucket' = .array items' ∧
      List.Forall₂ (SameKey heap heap') items items'

theorem bucketPairs_null : heap.bucketPairs .null = [] := rfl

theorem bucketPairs_of_payload {bucket : Value} {items : List Value}
    (content : heap.payload bucket = .array items) : heap.bucketPairs bucket = pairUp items := by
  simp [bucketPairs, items?, content, Payload.items?]

theorem length_bucketPairs_of_sameBucket {bucket bucket' : Value}
    (same : SameBucket heap heap' bucket bucket') :
    (heap'.bucketPairs bucket').length = (heap.bucketPairs bucket).length := by
  rcases same with ⟨rfl, rfl | empty⟩ | ⟨items, items', before, after, related⟩
  · rfl
  · rw [bucketPairs_of_payload empty, bucketPairs_null]
    rfl
  · rw [bucketPairs_of_payload before, bucketPairs_of_payload after, length_pairUp, length_pairUp,
      related.length_eq]

theorem length_flatMap_of_sameBucket {buckets buckets' : List Value}
    (same : List.Forall₂ (SameBucket heap heap') buckets buckets') :
    (buckets'.flatMap heap'.bucketPairs).length = (buckets.flatMap heap.bucketPairs).length := by
  induction same with
  | nil => rfl
  | cons head _ inductionHypothesis =>
      rw [List.flatMap_cons, List.flatMap_cons, List.length_append, List.length_append,
        inductionHypothesis, length_bucketPairs_of_sameBucket head]

theorem OrderedTable.transport {content content' : HashTable}
    (ordered : heap.OrderedTable content)
    (hashBuckets : heap'.config.hashBuckets = heap.config.hashBuckets)
    (pairs : content'.pairs = content.pairs)
    (same : List.Forall₂ (SameBucket heap heap') content.buckets content'.buckets) :
    heap'.OrderedTable content' := by
  have length := same.length_eq
  refine ⟨?_, fun {slot bucket'} found => ?_, ?_⟩
  · rw [hashBuckets, ← length]
    refine ordered.length.imp_left fun empty => ?_
    rwa [← List.length_eq_zero_iff, ← length, List.length_eq_zero_iff]
  · obtain ⟨inside, rfl⟩ := List.getElem?_eq_some_iff.mp found
    have before : slot < content.buckets.length := length ▸ inside
    rcases same.get before inside with
      ⟨-, absent | empty⟩ | ⟨items, items', old, new, related⟩
    · exact .inl absent
    · exact .inr ⟨[], empty, orderedBucket_nil⟩
    · refine .inr ⟨items', new, ?_⟩
      rcases ordered.bucket (List.getElem?_eq_getElem before) with absent | ⟨items₀, old₀, inOrder⟩
      · rw [List.get_eq_getElem, absent] at old
        simp [payload] at old
      · rw [List.get_eq_getElem, old₀] at old
        obtain rfl : items₀ = items := by simpa using old
        exact length ▸ inOrder.transport related
  · rw [pairs, ordered.pairs, length_flatMap_of_sameBucket same]

/-! ## The count of pairs -/

/-- A table that knows how many pairs its buckets hold. -/
def TalliedTable (heap : Heap σ) (content : HashTable) : Prop :=
  content.pairs = (content.buckets.flatMap heap.bucketPairs).length

/-- Every hash counts its pairs, except for those in `outside`. -/
def TalliedOutside (heap : Heap σ) (outside : Set Value) : Prop :=
  ∀ ⦃table content⦄, table ∉ outside → heap.table? table = some content →
    heap.TalliedTable content

/-- Every hash counts its pairs. -/
def TablesTallied (heap : Heap σ) : Prop :=
  heap.TalliedOutside ∅

theorem talliedTable_empty : heap.TalliedTable {} := rfl

theorem TalliedTable.transport {content content' : HashTable} (tallied : heap.TalliedTable content)
    (pairs : content'.pairs = content.pairs)
    (same : List.Forall₂ (SameBucket heap heap') content.buckets content'.buckets) :
    heap'.TalliedTable content' := by
  rw [TalliedTable, pairs, tallied, length_flatMap_of_sameBucket same]

end Heap

end CountedHeap
