import CountedHeap.Proofs.Collection
import CountedHeap.Proofs.Runs
import Mathlib.Data.List.Chain
import Mathlib.Data.Set.Card
import Mathlib.Logic.Relation

/-!
Contract: full sweeps collect all garbage that has no cycles.

Garbage is what is live and not anchored.  A sweep reclaims a cell only if its count is zero when
it is visited, so of a chain of garbage it may reclaim no more than the first cell.

Owns:
- garbage, and chains of it;
- what survives some full sweeps is at the end of a chain that is longer than their number;
- after as many full sweeps as the longest chain has cells, what is live is what is anchored.

Does not own: garbage with cycles, of which no sweep reclaims anything.
-/

namespace CountedHeap

namespace Heap

variable {σ : Signature} {heap : Heap σ} {held : Multiset Value} {sweeps : Nat} {value : Value}

/-! ## Full sweeps -/

/-- The heap after some full sweeps with nothing in between. -/
def fullSweeps (heap : Heap σ) (sweeps : Nat) : Heap σ :=
  (fun heap => (heap.sweep .full).2)^[sweeps] heap

theorem fullSweeps_succ :
    heap.fullSweeps (sweeps + 1) = ((heap.fullSweeps sweeps).sweep .full).2 :=
  Function.iterate_succ_apply' _ _ _

theorem Exact.fullSweeps (exact_ : heap.Exact held) (sweeps : Nat) :
    (heap.fullSweeps sweeps).Exact held ∧
      Thins (anchors held) heap (heap.fullSweeps sweeps) := by
  induction sweeps with
  | zero => exact ⟨exact_, .refl _ heap⟩
  | succ sweeps inductionHypothesis =>
      obtain ⟨exactBefore, before⟩ := inductionHypothesis
      obtain ⟨swept, sweeping⟩ := exactBefore.sweep .full
      rw [fullSweeps_succ]
      exact ⟨swept, before.trans sweeping⟩

theorem Runs.fullSweeps {loose : Prop} {first : Heap σ} (runs : Runs loose first heap)
    (sweeps : Nat) : Runs loose first (heap.fullSweeps sweeps) := by
  induction sweeps with
  | zero => exact runs
  | succ sweeps inductionHypothesis =>
      rw [fullSweeps_succ]
      exact inductionHypothesis.sweep .full

/-- The number of long-lived cells, as the number of their handles. -/
theorem Proper.live_eq_ncard {loose : Prop} (proper : heap.Proper loose) :
    heap.live = {value | value.isScratch = false ∧ heap.isLive value = true}.ncard := by
  have handles : {value | value.isScratch = false ∧ heap.isLive value = true} =
      (heap.cellHandles.toFinset : Set Value) := by
    ext value
    rw [List.coe_toFinset]
    exact mem_cellHandles_iff.symm
  rw [handles, Set.ncard_coe_finset, List.toFinset_card_of_nodup cellHandles_nodup,
    proper.live_eq]

/-! ## Garbage -/

/-- What is live and can be reached neither from what is held nor from the pool. -/
def Garbage (heap : Heap σ) (held : Multiset Value) (value : Value) : Prop :=
  heap.isLive value = true ∧ ¬heap.Anchored held value

/-- A piece of garbage refers to another. -/
def Drags (heap : Heap σ) (held : Multiset Value) (holder value : Value) : Prop :=
  heap.Garbage held holder ∧ heap.Garbage held value ∧ value ∈ heap.children holder

/-- Pieces of garbage of which each refers to the next. -/
structure GarbageChain (heap : Heap σ) (held : Multiset Value) (chain : List Value) : Prop where
  garbage : ∀ value ∈ chain, heap.Garbage held value
  linked : chain.IsChain fun holder value => value ∈ heap.children holder

theorem finite_garbage : {value | heap.Garbage held value}.Finite := by
  apply heap.handles.finite_toSet.subset
  intro value garbage
  exact mem_handles_iff.mpr garbage.1

/-- There are no cycles where every reference goes down. -/
theorem not_cyclic_of_rank (rank : Value → Nat)
    (falls : ∀ holder, ∀ value ∈ heap.children holder, rank value < rank holder) (value : Value) :
    ¬Relation.TransGen (heap.Drags held) value value := by
  have falling : ∀ {holder value}, Relation.TransGen (heap.Drags held) holder value →
      rank value < rank holder := by
    intro holder value drags
    induction drags with
    | single drags => exact falls _ _ drags.2.2
    | tail _ drags inductionHypothesis =>
        exact Nat.lt_trans (falls _ _ drags.2.2) inductionHypothesis
  exact fun cyclic => Nat.lt_irrefl _ (falling cyclic)

/-- Without cycles, a chain of garbage is no longer than there is garbage. -/
theorem GarbageChain.length_le {chain : List Value} (isChain : heap.GarbageChain held chain)
    (acyclic : ∀ value, ¬Relation.TransGen (heap.Drags held) value value) :
    chain.length ≤ {value | heap.Garbage held value}.ncard := by
  have dragging : chain.IsChain (Relation.TransGen (heap.Drags held)) := by
    apply isChain.linked.imp_of_mem_imp
    intro holder value holderMember member child
    exact .single ⟨isChain.garbage holder holderMember, isChain.garbage value member, child⟩
  have distinct : chain.Nodup := by
    apply dragging.pairwise.imp
    rintro holder value drags rfl
    exact acyclic holder drags
  rw [← List.toFinset_card_of_nodup distinct, ← Set.ncard_coe_finset]
  apply Set.ncard_le_ncard _ finite_garbage
  intro value member
  rw [List.coe_toFinset] at member
  exact isChain.garbage value member

/-- A piece of garbage that a full sweep leaves was referred to by another when it began. -/
theorem Exact.holder_of_survivor (exact_ : heap.Exact held) (garbage : heap.Garbage held value)
    (survives : (heap.fullSweeps (sweeps + 1)).isLive value = true) :
    ∃ holder, heap.Garbage held holder ∧ (heap.fullSweeps sweeps).isLive holder = true ∧
      value ∈ heap.children holder := by
  obtain ⟨exactBefore, thins⟩ := exact_.fullSweeps sweeps
  rw [fullSweeps_succ] at survives
  have live := (exactBefore.sweep .full).2.live survives
  have counted : (heap.fullSweeps sweeps).refs value ≠ 0 := by
    cases value with
    | null => contradiction
    | scratch id => exact absurd (.anchor (.inr rfl)) garbage.2
    | cell id =>
        intro unheld
        rw [not_isLive_sweep_full unheld] at survives
        contradiction
  have notHeld : held.count value = 0 := by
    apply Multiset.count_eq_zero.mpr
    intro member
    exact garbage.2 (.anchor (.inl member))
  have referenced : value ∈ (heap.fullSweeps sweeps).references := by
    apply List.count_pos_iff.mp
    rw [exactBefore value live, notHeld] at counted
    omega
  obtain ⟨holder, holderLive, member⟩ := mem_references_iff.mp referenced
  rw [thins.children holderLive] at member
  exact ⟨holder, ⟨thins.live holderLive, fun anchored => garbage.2 (.child anchored member)⟩,
    holderLive, member⟩

/-- What survives some full sweeps is at the end of a chain that is longer than their number.  The
induction goes back in time: the holder before the last sweep had survived one sweep less. -/
theorem Exact.chain_of_survivor (exact_ : heap.Exact held) (garbage : heap.Garbage held value)
    (survives : (heap.fullSweeps sweeps).isLive value = true) :
    ∃ chain, heap.GarbageChain held chain ∧ chain.length = sweeps + 1 ∧
      chain.getLast? = some value := by
  induction sweeps generalizing value with
  | zero => exact ⟨[value], ⟨by simpa using garbage, .singleton value⟩, rfl, rfl⟩
  | succ sweeps inductionHypothesis =>
      obtain ⟨holder, holderGarbage, holderLive, member⟩ :=
        exact_.holder_of_survivor garbage survives
      obtain ⟨chain, isChain, length, last⟩ := inductionHypothesis holderGarbage holderLive
      refine ⟨chain ++ [value], ⟨?_, ?_⟩, by simp [length], by simp⟩
      · intro other inside
        rcases List.mem_append.mp inside with inChain | isValue
        · exact isChain.garbage other inChain
        · rwa [List.mem_singleton.mp isValue]
      · apply isChain.linked.append (.singleton value)
        intro other isLast next isNext
        obtain rfl := Option.some.inj (last.symm.trans isLast)
        obtain rfl := Option.some.inj isNext
        exact member

/-- What is anchored still is when other cells are gone. -/
theorem Anchored.thinned {heap' : Heap σ} (thins : Thins (anchors held) heap heap')
    (anchored : heap.Anchored held value) : heap'.Anchored held value := by
  induction anchored with
  | anchor member => exact .anchor member
  | @child holder value before member inductionHypothesis =>
      have holderLive := before.isLive thins (isLive_of_mem_children member)
      apply Anchored.child inductionHypothesis
      rwa [thins.children holderLive]

/-- If counts are exact and no garbage refers back to itself, full sweeps reclaim all garbage and
nothing else.  As many are enough as the longest chain of garbage has cells, and no chain is longer
than there is garbage. -/
theorem Runs.full_sweeps_collect_acyclic_garbage {config : Config}
    (runs : Runs True (.new config) heap) (exact_ : heap.Exact held)
    (acyclic : ∀ value, ¬Relation.TransGen (heap.Drags held) value value) :
    {value | heap.Garbage held value}.Finite ∧
    (∀ chain, heap.GarbageChain held chain →
      chain.length ≤ {value | heap.Garbage held value}.ncard) ∧
    ∀ sweeps, (∀ chain, heap.GarbageChain held chain → chain.length ≤ sweeps) →
      (∀ value, (heap.fullSweeps sweeps).isLive value = true ↔
        heap.isLive value = true ∧ heap.Anchored held value) ∧
      (∀ value, ¬(heap.fullSweeps sweeps).Garbage held value) ∧
      (heap.fullSweeps sweeps).live = {value | value.isScratch = false ∧
        heap.isLive value = true ∧ heap.Anchored held value}.ncard ∧
      ∀ value, heap.Garbage held value → (heap.fullSweeps sweeps).cell? value = none := by
  refine ⟨finite_garbage, fun chain isChain => isChain.length_le acyclic, fun sweeps enough => ?_⟩
  obtain ⟨-, thins⟩ := exact_.fullSweeps sweeps
  have collected : ∀ value, heap.Garbage held value →
      (heap.fullSweeps sweeps).isLive value = false := by
    intro value garbage
    apply eq_false_of_ne_true
    intro survives
    obtain ⟨chain, isChain, length, -⟩ := exact_.chain_of_survivor garbage survives
    have short := enough chain isChain
    omega
  have survivors : ∀ value, (heap.fullSweeps sweeps).isLive value = true ↔
      heap.isLive value = true ∧ heap.Anchored held value := by
    intro value
    constructor
    · intro live
      refine ⟨thins.live live, ?_⟩
      by_contra unanchored
      rw [collected value ⟨thins.live live, unanchored⟩] at live
      contradiction
    · rintro ⟨live, anchored⟩
      exact anchored.isLive thins live
  have proper := (runs.fullSweeps sweeps).proper_new
  refine ⟨survivors, fun value garbage => ?_, ?_, fun value garbage => ?_⟩
  · exact garbage.2 (((survivors value).mp garbage.1).2.thinned thins)
  · rw [proper.live_eq_ncard]
    simp only [survivors]
  · simpa [isLive] using collected value garbage

end Heap

namespace Session

variable {σ : Signature} {session : Session σ}

/-- A program that runs no callable leaves its heap with exact counts. -/
theorem Reaches.exact {config : Config}
    (reaches : Reaches (fun _ event => event.isPlain = true) (.start config) session) :
    session.heap.Exact session.owners :=
  reaches.sound_owners.toCounted.exact

end Session

namespace Heap

/-- A string in an array that is in another array, and a string that is retained. -/
def nestingScript : List (Event .bare) :=
  [.request (.string "a"), .request (.arrayOf [.cell ⟨0, 0⟩]),
    .request (.arrayOf [.cell ⟨1, 0⟩, .cell ⟨0, 0⟩]), .request (.string "b"),
    .retain (.cell ⟨3, 0⟩)]

theorem isSome_nesting : (Session.run? (fun _ event => event.isPlain = true) (.start {})
    nestingScript).isSome = true := by
  decide +kernel

/-- The heap that the script leaves. -/
def nesting : Heap .bare :=
  ((Session.run? _ _ nestingScript).get isSome_nesting).heap

/-- The slot that a handle names. -/
def place : Value → Nat
  | .cell id => id.index
  | _ => 0

/-- Of three pieces of garbage, each sweep reclaims one. -/
theorem nested_array_takes_three_sweeps :
    Runs True (.new {}) nesting ∧ nesting.Exact {.cell ⟨3, 0⟩} ∧
      (∀ value, ¬Relation.TransGen (nesting.Drags {.cell ⟨3, 0⟩}) value value) ∧
      nesting.live = 4 ∧ (nesting.fullSweeps 2).isLive (.cell ⟨0, 0⟩) = true ∧
      (∀ value, (nesting.fullSweeps 3).isLive value = true ↔
        nesting.isLive value = true ∧ nesting.Anchored {.cell ⟨3, 0⟩} value) ∧
      (nesting.fullSweeps 3).live = 1 := by
  have reaches := Session.reaches_of_run? .refl (Option.some_get isSome_nesting).symm
  have owners : ((Session.run? _ _ nestingScript).get isSome_nesting).owners =
      {.cell ⟨3, 0⟩} := by
    decide +kernel
  have exact_ : nesting.Exact {.cell ⟨3, 0⟩} := owners ▸ reaches.exact
  have falls : ∀ holder ∈ nesting.handles, ∀ value ∈ nesting.children holder,
      place value < place holder := by
    decide +kernel
  have acyclic : ∀ value, ¬Relation.TransGen (nesting.Drags {.cell ⟨3, 0⟩}) value value := by
    apply not_cyclic_of_rank place
    intro holder value member
    exact falls holder (mem_handles_iff.mpr (isLive_of_mem_children member)) value member
  obtain ⟨-, short, collects⟩ := reaches.runs.full_sweeps_collect_acyclic_garbage exact_ acyclic
  have garbage : {value | nesting.Garbage {.cell ⟨3, 0⟩} value} ⊆
      ([.cell ⟨0, 0⟩, .cell ⟨1, 0⟩, .cell ⟨2, 0⟩] : List Value).toFinset := by
    rintro value ⟨live, unanchored⟩
    have all : ∀ value ∈ nesting.handles, value = .cell ⟨3, 0⟩ ∨
        value ∈ ([.cell ⟨0, 0⟩, .cell ⟨1, 0⟩, .cell ⟨2, 0⟩] : List Value) := by
      decide +kernel
    rw [List.coe_toFinset]
    apply (all value (mem_handles_iff.mpr live)).resolve_left
    rintro rfl
    exact unanchored (.anchor (.inl (Multiset.mem_singleton_self _)))
  have few : {value | nesting.Garbage {.cell ⟨3, 0⟩} value}.ncard ≤ 3 := by
    apply (Set.ncard_le_ncard garbage (Finset.finite_toSet _)).trans
    rw [Set.ncard_coe_finset]
    decide
  obtain ⟨survivors, -⟩ := collects 3 fun chain isChain => (short chain isChain).trans few
  exact ⟨reaches.runs, exact_, acyclic, by decide +kernel, by decide +kernel, survivors,
    by decide +kernel⟩

end Heap

end CountedHeap
