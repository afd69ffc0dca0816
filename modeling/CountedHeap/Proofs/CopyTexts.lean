import CountedHeap.Proofs.CopyGraph
import CountedHeap.Proofs.ListView
import CountedHeap.Proofs.Texts

/-!
Contract: the text of a copy.

A copy is the same graph on new cells.  So it is written as the value was, and an occurrence of a
container within its own text is abbreviated in the copy just where it is in the value.

Owns:
- what an image has of the payload of what it stands for;
- values and their images correspond as texts do;
- a copy has the text of its value, and shares with the older cells nothing that could change.
-/

namespace CountedHeap.Heap

variable {σ : Signature} {heap heap' : Heap σ} {image : Value → Value} {value answer copy : Value}

theorem isMulti_of_varies (varies : (heap.kind value).hasFixedText = false) :
    (heap.kind value).isMulti = true := by
  rcases array_or_hash varies with ⟨items, payload⟩ | ⟨content, payload⟩ <;>
    rw [kind, payload] <;> rfl

/-! ## Images -/

/-- What stands for a value that is no container has its payload. -/
theorem ImageOf.payload_eq (stands : ImageOf heap heap' image value copy) (grows : Grows heap heap')
    (consistent : heap.Consistent) (single : (heap.kind value).isMulti = false) :
    heap'.payload copy = heap.payload value := by
  cases live : heap.isLive value with
  | false => rw [stands.absent live, payload_of_not_isLive live]; rfl
  | true =>
      cases scratch : value.isScratch with
      | false =>
          rw [stands.same live single scratch]
          exact grows.payload (consistent.issued live)
      | true => exact (stands.plain live single scratch).2.2.2

/-- An image has the kind of what it stands for. -/
theorem SameGraph.kind_image (graph : SameGraph heap heap' value answer image)
    (grows : Grows heap heap') (consistent : heap.Consistent) {other : Value}
    (below : heap.Below value other) (stands : ImageOf heap heap' image other copy) :
    heap'.kind copy = heap.kind other := by
  cases multi : (heap.kind other).isMulti with
  | true => rw [stands.container multi, graph.kind ⟨below, multi⟩]
  | false => rw [Heap.kind, stands.payload_eq grows consistent multi, Heap.kind]

/-- A value below the one that was copied, with what stands for it. -/
def Stands (heap heap' : Heap σ) (value : Value) (image : Value → Value) (other copy : Value) :
    Prop :=
  heap.Below value other ∧ ImageOf heap heap' image other copy

/-- The images of the children are the children of the image. -/
theorem SameGraph.forall₂_children (graph : SameGraph heap heap' value answer image)
    {other : Value} (stands : heap.Stands heap' value image other copy)
    (multi : (heap.kind other).isMulti = true) :
    List.Forall₂ (heap.Stands heap' value image) (heap.children other) (heap'.children copy) := by
  obtain ⟨below, stands⟩ := stands
  rw [stands.container multi]
  have images := graph.children ⟨below, multi⟩
  exact ((List.forall₂_and_left _ _).mpr ⟨fun _ => below.tail, images⟩).imp fun _ _ => id

theorem forall₂_pairUp {relation : Value → Value → Prop} {items items' : List Value}
    (related : List.Forall₂ relation items items') :
    List.Forall₂ (fun pair pair' : Value × Value => relation pair.1 pair'.1 ∧
      relation pair.2 pair'.2) (pairUp items) (pairUp items') := by
  induction items using pairUp.induct generalizing items' with
  | case1 key value rest inductionHypothesis =>
      rcases related with _ | ⟨keys, _ | ⟨values, rests⟩⟩
      exact .cons ⟨keys, values⟩ (inductionHypothesis rests)
  | case2 items notPair =>
      obtain rfl | ⟨item, rfl⟩ := eq_nil_or_singleton notPair
      · cases related
        exact .nil
      · obtain _ | ⟨_, _ | _⟩ := related
        exact .nil

theorem items?_of_isSequence (isSequence : (heap.kind value).isSequence = true) :
    heap.items? value = some (heap.children value) := by
  unfold kind at isSequence
  unfold items? children
  cases payload : heap.payload value <;>
    simp_all [Payload.kind, Kind.isSequence, Payload.items?, Payload.children]

theorem items?_of_not_isSequence (notSequence : (heap.kind value).isSequence = false) :
    heap.items? value = none := by
  unfold kind at notSequence
  unfold items?
  cases payload : heap.payload value <;>
    simp_all [Payload.kind, Kind.isSequence, Payload.items?]

/-- The pairs in the image of a bucket. -/
theorem SameGraph.forall₂_bucketPairs (graph : SameGraph heap heap' value answer image)
    (grows : Grows heap heap') (consistent : heap.Consistent) {bucket : Value}
    (stands : heap.Stands heap' value image bucket copy) :
    List.Forall₂ (fun pair pair' : Value × Value =>
        heap.Stands heap' value image pair.1 pair'.1 ∧ heap.Stands heap' value image pair.2 pair'.2)
      (heap.bucketPairs bucket) (heap'.bucketPairs copy) := by
  have kinds := graph.kind_image grows consistent stands.1 stands.2
  unfold bucketPairs
  cases sequence : (heap.kind bucket).isSequence with
  | false =>
      rw [items?_of_not_isSequence sequence, items?_of_not_isSequence (by rwa [kinds])]
      exact .nil
  | true =>
      have multi : (heap.kind bucket).isMulti = true := by
        cases form : heap.kind bucket <;> simp_all [Kind.isSequence, Kind.isMulti]
      rw [items?_of_isSequence sequence, items?_of_isSequence (by rwa [kinds])]
      exact forall₂_pairUp (graph.forall₂_children stands multi)

/-- The pairs in the image of a hash. -/
theorem SameGraph.forall₂_pairs (graph : SameGraph heap heap' value answer image)
    (grows : Grows heap heap') (consistent : heap.Consistent) {table : Value}
    (stands : heap.Stands heap' value image table copy)
    (isHash : heap.kind table = .hash) :
    List.Forall₂ (fun pair pair' : Value × Value =>
        heap.Stands heap' value image pair.1 pair'.1 ∧ heap.Stands heap' value image pair.2 pair'.2)
      (heap.pairs table) (heap'.pairs copy) := by
  have buckets := graph.forall₂_children stands (by rw [isHash]; rfl)
  have isHash' := (graph.kind_image grows consistent stands.1 stands.2).trans isHash
  obtain ⟨content, found⟩ := exists_table?_of_kind isHash
  obtain ⟨content', found'⟩ := exists_table?_of_kind isHash'
  rw [children_of_table? found, children_of_table? found'] at buckets
  rw [Heap.pairs, Heap.pairs, found, found']
  exact List.rel_flatMap buckets fun _ _ stands =>
    graph.forall₂_bucketPairs grows consistent stands

/-! ## The text -/

/-- Values and what stands for them are written alike. -/
theorem SameGraph.corresponds (graph : SameGraph heap heap' value answer image)
    (grows : Grows heap heap') (consistent : heap.Consistent) :
    Corresponds heap heap' (heap.Stands heap' value image) where
  alike := by
    intro other copy stands
    have kinds := graph.kind_image grows consistent stands.1 stands.2
    cases fixed : (heap.kind other).hasFixedText with
    | false =>
        rcases array_or_hash fixed with ⟨items, payload⟩ | ⟨content, payload⟩
        · have isArray : heap.kind other = .array := by rw [Heap.kind, payload]; rfl
          have children := graph.forall₂_children stands (by rw [isArray]; rfl)
          obtain ⟨items', payload'⟩ := array_of_kind (kinds.trans isArray)
          rw [Heap.children, Heap.children, payload, payload'] at children
          exact .array payload payload' children
        · have isHash : heap.kind other = .hash := by rw [Heap.kind, payload]; rfl
          obtain ⟨content', found'⟩ := exists_table?_of_kind (kinds.trans isHash)
          exact .hash payload (table?_eq_some_iff.mp found')
            (graph.forall₂_pairs grows consistent stands isHash)
    | true =>
        refine .fixed fixed (by rwa [kinds]) ?_
        cases multi : (heap.kind other).isMulti with
        | false => rw [stands.2.payload_eq grows consistent multi]
        | true =>
            -- The only container whose text is settled is a program, and all programs are alike.
            unfold Heap.kind at fixed multi kinds
            cases payload : heap.payload other <;> cases payload' : heap'.payload copy <;>
              simp_all [Payload.kind, Kind.hasFixedText, Kind.isMulti, Payload.fixedText]
  sameContainer := by
    rintro first copy second copy' ⟨below, stands⟩ ⟨below', stands'⟩ varies varies'
    have multi := isMulti_of_varies varies
    have multi' := isMulti_of_varies varies'
    rw [stands.container multi, stands'.container multi']
    exact ⟨congrArg image, graph.injective ⟨below, multi⟩ ⟨below', multi'⟩⟩

/-- A copy of the graph has the text that the value had. -/
theorem SameGraph.text_eq (graph : SameGraph heap heap' value answer image)
    (grows : Grows heap heap') (consistent : heap.Consistent) :
    heap'.text answer = heap.text value := by
  apply (graph.corresponds grows consistent).textWithin_eq ⟨.refl, graph.answer⟩
  intro inner inner' _ _
  exact iff_of_false List.not_mem_nil List.not_mem_nil

/-- What is below a copy of the graph stands for something. -/
theorem SameGraph.exists_stands (graph : SameGraph heap heap' value answer image)
    (grows : Grows heap heap') (consistent : heap.Consistent) (below : heap'.Below answer copy) :
    ∃ other, heap.Stands heap' value image other copy := by
  induction below with
  | refl => exact ⟨value, .refl, graph.answer⟩
  | tail _ member inductionHypothesis =>
      obtain ⟨holder, stands⟩ := inductionHypothesis
      have multi := isMulti_of_mem_children member
      rw [graph.kind_image grows consistent stands.1 stands.2] at multi
      obtain ⟨child, -, childStands⟩ :=
        exists_mem_of_forall₂ (graph.forall₂_children stands multi) member
      exact ⟨child, childStands⟩

/-- What stands for something was issued, and if it is a container it is new. -/
theorem SameGraph.issued_image (graph : SameGraph heap heap' value answer image)
    (grows : Grows heap heap') (consistent : heap.Consistent) (consistent' : heap'.Consistent)
    {other : Value} (stands : heap.Stands heap' value image other copy) :
    heap'.Issued copy ∧ ((heap'.kind copy).isMulti = true → ¬heap.Issued copy) := by
  have kinds := graph.kind_image grows consistent stands.1 stands.2
  cases multi : (heap.kind other).isMulti with
  | true =>
      obtain ⟨new, live, -⟩ := graph.new ⟨stands.1, multi⟩
      rw [stands.2.container multi]
      exact ⟨consistent'.issued live, fun _ => new⟩
  | false =>
      refine ⟨?_, fun container => by rw [kinds, multi] at container; contradiction⟩
      cases live : heap.isLive other with
      | false =>
          rw [stands.2.absent live]
          exact issued_null
      | true =>
          cases scratch : other.isScratch with
          | false =>
              rw [stands.2.same live multi scratch]
              exact grows.issued (consistent.issued live)
          | true =>
              obtain ⟨isPlain, -, -, payload⟩ := stands.2.plain live multi scratch
              apply consistent'.issued
              apply isLive_of_isPlainData
              rwa [payload]

end CountedHeap.Heap
