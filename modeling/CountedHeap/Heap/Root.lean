import CountedHeap.Heap.Basic

/-!
Contract: values held from outside the heap.

Owns: the token that stands for one retained reference, given out by `root` and handed back
to `unroot`.
-/

namespace CountedHeap

/-- One reference to a value, held outside the heap.  It is to be handed back exactly
once. -/
structure Root where
  value : Value
deriving DecidableEq, Repr

namespace Heap

variable {σ : Signature}

/-- Hold a value. -/
def root (heap : Heap σ) (value : Value) : Root × Heap σ :=
  (⟨value⟩, heap.retain value)

/-- Hand a held reference back and answer its value. -/
def unroot (heap : Heap σ) (root : Root) : Value × Heap σ :=
  (root.value, heap.release root.value)

/-- Holding a value and letting it go restores its count. -/
theorem refs_unroot_root (heap : Heap σ) (value other : Value) :
    ((heap.root value).2.unroot (heap.root value).1).2.refs other = heap.refs other := by
  simp only [root, unroot, refs_release, refs_retain]
  by_cases same : other = value
  · subst same
    rcases Option.eq_none_or_eq_some (heap.cell? other) with found | ⟨cell, found⟩ <;>
      simp [found, isLive, refs]
  · simp [same]

end Heap

end CountedHeap
