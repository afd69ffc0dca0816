import CountedHeap.Proofs.Copies

/-!
Contract: what the text of a value depends on.

Writing a text goes down from a value, and remembers the containers it is inside of.  So two
values have the same text if each step down finds the same below both, and if a container is met
again below one just where it is met again below the other.

Owns:
- the text of each form of value, one step deep;
- `WrittenAlike` and `Corresponds`, by which values of two heaps have the same texts;
- heaps that agree on what is below a value give it the same text.
-/

namespace CountedHeap.Heap

variable {σ : Signature} {heap heap' : Heap σ}

/-! ## One step of writing -/

theorem textWithin_of_fixed {value : Value} (fixed : (heap.kind value).hasFixedText = true)
    (enclosing : List Value) :
    heap.textWithin enclosing value = (heap.payload value).fixedText := by
  unfold kind at fixed
  unfold textWithin
  cases content : heap.payload value <;>
    simp_all [Payload.kind, Kind.hasFixedText, Payload.fixedText]

theorem textWithin_of_array {value : Value} {items : List Value}
    (content : heap.payload value = .array items) (enclosing : List Value) :
    heap.textWithin enclosing value =
      if value ∈ enclosing then "[...]"
      else "[" ++ ",".intercalate (items.map (heap.textWithin (value :: enclosing))) ++ "]" := by
  rw [textWithin]
  split <;> simp_all

theorem textWithin_of_hash {value : Value} {table : HashTable}
    (content : heap.payload value = .hash table) (enclosing : List Value) :
    heap.textWithin enclosing value =
      if value ∈ enclosing then "\x7b...\x7d"
      else
        "\x7b" ++ ",".intercalate ((heap.pairs value).map fun pair =>
          heap.textWithin (value :: enclosing) pair.1 ++ ":" ++
            heap.textWithin (value :: enclosing) pair.2) ++ "\x7d" := by
  rw [textWithin]
  split <;> simp_all

/-- What is in a pair of a table is an item of one of its buckets. -/
theorem mem_children_of_mem_pairs {table : Value} {pair : Value × Value}
    (member : pair ∈ heap.pairs table) :
    ∃ bucket ∈ heap.children table,
      pair.1 ∈ heap.children bucket ∧ pair.2 ∈ heap.children bucket := by
  unfold pairs at member
  split at member
  next content found =>
    obtain ⟨bucket, inside, member⟩ := List.mem_flatMap.mp member
    unfold bucketPairs at member
    split at member
    next items itemsFound =>
      refine ⟨bucket, by rwa [children_of_table? found], ?_⟩
      rw [children_of_items? itemsFound]
      exact mem_of_mem_pairUp member
    next => contradiction
  next => contradiction

/-- What has no settled text is an array or a hash. -/
theorem array_or_hash {value : Value} (varies : (heap.kind value).hasFixedText = false) :
    (∃ items, heap.payload value = .array items) ∨ ∃ table, heap.payload value = .hash table := by
  unfold kind at varies
  cases content : heap.payload value with
  | array items => exact .inl ⟨items, rfl⟩
  | hash table => exact .inr ⟨table, rfl⟩
  | null | text | int | real | exec | file | program =>
      rw [content] at varies
      contradiction

theorem hasFixedText_of_array {value : Value} {items : List Value}
    (content : heap.payload value = .array items) :
    (heap.kind value).hasFixedText = false := by
  rw [kind, content]
  rfl

theorem hasFixedText_of_hash {value : Value} {table : HashTable}
    (content : heap.payload value = .hash table) : (heap.kind value).hasFixedText = false := by
  rw [kind, content]
  rfl

theorem exists_cell?_of_varies {value : Value} (varies : (heap.kind value).hasFixedText = false) :
    ∃ cell, heap.cell? value = some cell := by
  apply isLive_iff.mp
  apply isLive_of_kind_ne
  intro absent
  rw [absent] at varies
  contradiction

/-! ## Values that correspond -/

/-- Values of two heaps whose texts are alike in the first step, and below it by `related`. -/
inductive WrittenAlike (heap heap' : Heap σ) (related : Value → Value → Prop)
    (value value' : Value) : Prop
  | fixed (fixed : (heap.kind value).hasFixedText = true)
      (fixed' : (heap'.kind value').hasFixedText = true)
      (same : (heap'.payload value').fixedText = (heap.payload value).fixedText) :
      WrittenAlike heap heap' related value value'
  | array {items items' : List Value} (payload : heap.payload value = .array items)
      (payload' : heap'.payload value' = .array items')
      (below : List.Forall₂ related items items') : WrittenAlike heap heap' related value value'
  | hash {table table' : HashTable} (payload : heap.payload value = .hash table)
      (payload' : heap'.payload value' = .hash table')
      (below : List.Forall₂
        (fun pair pair' : Value × Value => related pair.1 pair'.1 ∧ related pair.2 pair'.2)
        (heap.pairs value) (heap'.pairs value')) : WrittenAlike heap heap' related value value'

/-- A relation between the values of two heaps along which texts are written alike.  Containers
are related one to one. -/
structure Corresponds (heap heap' : Heap σ) (related : Value → Value → Prop) : Prop where
  alike : ∀ {value value'}, related value value' → WrittenAlike heap heap' related value value'
  sameContainer : ∀ {first first' second second'}, related first first' →
    related second second' → (heap.kind first).hasFixedText = false →
      (heap.kind second).hasFixedText = false → (first = second ↔ first' = second')

theorem map_eq_map_of_forall₂ {α β γ : Type} {relation : α → β → Prop} {first : α → γ}
    {second : β → γ} {lefts : List α} {rights : List β}
    (related : List.Forall₂ relation lefts rights)
    (same : ∀ {left right}, relation left right → second right = first left) :
    rights.map second = lefts.map first := by
  rw [eq_comm, ← List.forall₂_eq_eq_eq, List.forall₂_map_left_iff, List.forall₂_map_right_iff]
  exact related.imp fun _ _ pair => (same pair).symm

/-- Related values have the same text inside containers of which the related ones were entered. -/
theorem Corresponds.textWithin_eq {related : Value → Value → Prop}
    (corresponds : Corresponds heap heap' related) {value value' : Value}
    {enclosing enclosing' : List Value} (here : related value value')
    (entered : ∀ {inner inner'}, related inner inner' → (heap.kind inner).hasFixedText = false →
      (inner ∈ enclosing ↔ inner' ∈ enclosing')) :
    heap'.textWithin enclosing' value' = heap.textWithin enclosing value := by
  induction count : heap.unentered enclosing using Nat.strongRecOn
    generalizing enclosing enclosing' value value' with
  | ind count inductionHypothesis =>
      have inside : ∀ {child child'}, (heap.kind value).hasFixedText = false →
          value ∉ enclosing → related child child' →
            heap'.textWithin (value' :: enclosing') child' =
              heap.textWithin (value :: enclosing) child := by
        intro child child' varies outside below
        obtain ⟨cell, found⟩ := exists_cell?_of_varies varies
        refine inductionHypothesis _ (count ▸ unentered_cons_lt found outside) below
          (fun {inner inner'} relatedInner container => ?_) rfl
        rw [List.mem_cons, List.mem_cons, entered relatedInner container,
          corresponds.sameContainer relatedInner here container varies]
      cases corresponds.alike here with
      | fixed fixed fixed' same => rw [textWithin_of_fixed fixed, textWithin_of_fixed fixed', same]
      | @array items items' payload payload' below =>
          have varies := hasFixedText_of_array payload
          rw [textWithin_of_array payload, textWithin_of_array payload']
          by_cases outside : value ∈ enclosing
          · rw [if_pos outside, if_pos ((entered here varies).mp outside)]
          · rw [if_neg outside, if_neg (mt (entered here varies).mpr outside),
              map_eq_map_of_forall₂ below fun relatedItem => inside varies outside relatedItem]
      | hash payload payload' below =>
          have varies := hasFixedText_of_hash payload
          rw [textWithin_of_hash payload, textWithin_of_hash payload']
          by_cases outside : value ∈ enclosing
          · rw [if_pos outside, if_pos ((entered here varies).mp outside)]
          · rw [if_neg outside, if_neg (mt (entered here varies).mpr outside)]
            have pairTexts : ((heap'.pairs value').map fun pair =>
                  heap'.textWithin (value' :: enclosing') pair.1 ++ ":" ++
                    heap'.textWithin (value' :: enclosing') pair.2) =
                (heap.pairs value).map fun pair =>
                  heap.textWithin (value :: enclosing) pair.1 ++ ":" ++
                    heap.textWithin (value :: enclosing) pair.2 :=
              map_eq_map_of_forall₂ below fun both => by
                rw [inside varies outside both.1, inside varies outside both.2]
            rw [pairTexts]

/-! ## Heaps that agree -/

/-- Where heaps agree on a set of values, and on what is below them, these correspond to
themselves. -/
theorem corresponds_of_kept {kept : Set Value}
    (payload : ∀ {value}, value ∈ kept → heap'.payload value = heap.payload value)
    (below : ∀ {value child}, value ∈ kept → child ∈ heap.children value → child ∈ kept) :
    Corresponds heap heap' fun value value' => value' = value ∧ value ∈ kept where
  alike := by
    rintro _ value ⟨rfl, member⟩
    have same := payload member
    cases fixed : (heap.kind value).hasFixedText with
    | true => exact .fixed fixed (by rwa [kind, same]) (by rw [same])
    | false =>
        rcases array_or_hash fixed with ⟨items, content⟩ | ⟨table, content⟩
        · exact .array content (same.trans content) (List.forall₂_same.mpr fun item inside =>
            ⟨rfl, below member (by rwa [children, content])⟩)
        · have samePairs : heap'.pairs value = heap.pairs value := by
            rw [pairs, pairs, table?, table?, same, content]
            apply List.flatMap_congr
            intro bucket bucketMember
            have bucketKept : bucket ∈ kept := below member (by rwa [children, content])
            rw [bucketPairs, bucketPairs, items?, items?, payload bucketKept]
          refine .hash content (same.trans content) ?_
          rw [samePairs]
          refine List.forall₂_same.mpr fun pair inside => ?_
          obtain ⟨bucket, bucketMember, first, second⟩ := mem_children_of_mem_pairs inside
          have bucketKept := below member bucketMember
          exact ⟨⟨rfl, below bucketKept first⟩, rfl, below bucketKept second⟩
  sameContainer := by
    rintro first _ second _ ⟨rfl, -⟩ ⟨rfl, -⟩ - -
    rfl

/-- A heap that agrees with another on a set of values, and on what is below them, gives them the
same texts. -/
theorem textWithin_congr {kept : Set Value}
    (payload : ∀ {value}, value ∈ kept → heap'.payload value = heap.payload value)
    (below : ∀ {value child}, value ∈ kept → child ∈ heap.children value → child ∈ kept)
    {value : Value} (member : value ∈ kept) (enclosing : List Value) :
    heap'.textWithin enclosing value = heap.textWithin enclosing value := by
  apply (corresponds_of_kept payload below).textWithin_eq ⟨rfl, member⟩
  rintro inner _ ⟨rfl, -⟩ -
  rfl

/-- A value has the same text in two heaps that agree on what is below it. -/
theorem text_eq_of_below {value : Value}
    (kept : ∀ {other}, heap.Below value other → heap'.payload other = heap.payload other) :
    heap'.text value = heap.text value := by
  have here : value ∈ {other | heap.Below value other} := .refl
  exact textWithin_congr kept (fun below member => .tail below member) here []

end CountedHeap.Heap
