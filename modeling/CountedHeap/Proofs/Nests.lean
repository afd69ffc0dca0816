import CountedHeap.Proofs.Copies

/-!
Contract: how deep containers are nested.

A nest is a row of containers of which each holds the next.  Where the nests that begin with a value
have a bounded length, the value can be walked without a record of what was visited: no container
below it is met again below itself.

Owns:
- what is strictly below a value;
- nests, and the number of levels in which a value nests, which is computed by going down;
- values that nest in a bounded number of levels have no cycles below them.
-/

namespace CountedHeap.Heap

variable {σ : Signature} {heap : Heap σ} {value : Value}

/-- What can be reached from a value through one or more references. -/
def StrictlyBelow (heap : Heap σ) : Value → Value → Prop :=
  Relation.TransGen fun holder child => child ∈ heap.children holder

/-- Containers of which each holds the next. -/
structure Nest (heap : Heap σ) (chain : List Value) : Prop where
  containers : ∀ container ∈ chain, (heap.kind container).isMulti = true
  nested : chain.IsChain fun holder child => child ∈ heap.children holder

/-- No nest of containers that begins with the value has more than `levels` of them. -/
def NestsWithin (heap : Heap σ) (levels : Nat) (value : Value) : Prop :=
  ∀ inner, heap.Nest (value :: inner) → (value :: inner).length ≤ levels

/-- What nests in no level is no container. -/
theorem nestsWithin_zero_iff : heap.NestsWithin 0 value ↔ (heap.kind value).isMulti = false := by
  constructor
  · intro nests
    apply eq_false_of_ne_true
    intro multi
    have short := nests [] ⟨List.forall_mem_singleton.mpr multi, .singleton value⟩
    contradiction
  · intro single inner nest
    have multi := nest.containers value List.mem_cons_self
    rw [single] at multi
    contradiction

/-- The children of a container nest a level less. -/
theorem nestsWithin_succ_iff {levels : Nat} :
    heap.NestsWithin (levels + 1) value ↔
      ((heap.kind value).isMulti = true →
        ∀ child ∈ heap.children value, heap.NestsWithin levels child) := by
  constructor
  · intro nests multi child member inner nest
    have outer : heap.Nest (value :: child :: inner) :=
      ⟨List.forall_mem_cons.mpr ⟨multi, nest.containers⟩, .cons_cons member nest.nested⟩
    exact Nat.le_of_succ_le_succ (nests (child :: inner) outer)
  · intro below inner nest
    obtain ⟨multi, containers⟩ := List.forall_mem_cons.mp nest.containers
    cases inner with
    | nil => exact Nat.succ_pos levels
    | cons child inner =>
        obtain ⟨member, nested⟩ := List.isChain_cons_cons.mp nest.nested
        exact Nat.succ_le_succ (below multi child member inner ⟨containers, nested⟩)

instance decidableNestsWithin (heap : Heap σ) :
    (levels : Nat) → (value : Value) → Decidable (heap.NestsWithin levels value)
  | 0, _ => decidable_of_iff _ nestsWithin_zero_iff.symm
  | levels + 1, _ =>
      have := decidableNestsWithin heap levels
      decidable_of_iff _ nestsWithin_succ_iff.symm

/-- What is below a value nests in no more levels. -/
theorem NestsWithin.of_below {levels : Nat} {other : Value}
    (nests : heap.NestsWithin levels value) (below : heap.Below value other) :
    heap.NestsWithin levels other := by
  induction below with
  | refl => exact nests
  | @tail holder child _ member inductionHypothesis =>
      intro inner nest
      have multi := isMulti_of_mem_children member
      have outer : heap.Nest (holder :: child :: inner) :=
        ⟨List.forall_mem_cons.mpr ⟨multi, nest.containers⟩, .cons_cons member nest.nested⟩
      exact (Nat.le_succ _).trans (inductionHypothesis (child :: inner) outer)

/-- What nests in a bounded number of levels is not below itself.  The induction is on the levels:
the first child on the way back to a value nests a level less, and is below itself too. -/
theorem NestsWithin.not_strictlyBelow {levels : Nat} (nests : heap.NestsWithin levels value) :
    ¬heap.StrictlyBelow value value := by
  induction levels generalizing value with
  | zero =>
      intro cyclic
      obtain ⟨child, member, -⟩ := Relation.TransGen.head'_iff.mp cyclic
      have multi := isMulti_of_mem_children member
      rw [nestsWithin_zero_iff.mp nests] at multi
      contradiction
  | succ levels inductionHypothesis =>
      intro cyclic
      obtain ⟨child, member, back⟩ := Relation.TransGen.head'_iff.mp cyclic
      have childNests := nestsWithin_succ_iff.mp nests (isMulti_of_mem_children member) child member
      exact inductionHypothesis childNests (.tail' back member)

end CountedHeap.Heap
