import CountedHeap.Proofs.GuardedRequests
import CountedHeap.Proofs.Tallies

/-!
Contract: no step of an operation is out of range.

An operation looks up elements, cuts ranges, rotates, takes differences and cuts texts.  On a heap
that a program reaches, all of these have a result.  The one exception is a count of pairs that was
wrong before: a hash that was copied while a pair of it was being made has the pair and does not
count it, and removing the pair takes one from zero.

Owns:
- `InRange`, which says of a heap that whatever is asked of it comes to what it should by guarded
  steps;
- it holds of every heap of a session whose events are separate;
- the hash that is stored in itself under a scratch array.
-/

namespace CountedHeap

variable {σ : Signature}

/-- Whatever is asked of a heap next, no step of it is a misstep.

Cells are made, released and reclaimed in the middle of other operations, so these three are asked
of every heap on the way. -/
structure Heap.InRange (heap : Heap σ) : Prop where
  request : ∀ {request : Request σ}, Guarded.Measured heap request →
    Guarded.perform heap request = liftM (heap.perform request)
  removal : ∀ table key, heap.removeKey table key = .ok (heap.eraseKey table key)
  sort : ∀ (call : Caller σ) (sequence : Value) (step : Nat) (comparator : Option Value),
    Guarded.sortItems call sequence step comparator =
      liftM (sortItems call sequence step comparator)
  linearSeek : ∀ sequence key step, Guarded.linearSeek heap sequence key step =
    (pure (heap.linearSeek sequence key step) : Guarded Id (Option Nat))
  binarySeek : ∀ sequence key step, Guarded.binarySeek heap sequence key step =
    (pure (heap.binarySeek sequence key step) : Guarded Id Seek)
  locate : ∀ table text, Guarded.locate heap table text =
    (pure (heap.locate? table text) : Guarded Id (Option (Value × Nat)))
  nextPair : ∀ table cursor, Guarded.nextPair heap table cursor =
    (pure (heap.nextPair table cursor) : Guarded Id (Option (Value × Value) × TableCursor))
  getPath : ∀ root path, Guarded.getPath heap root path =
    (pure (heap.getPath root path) : Guarded Id Value)
  integer : ∀ text, Guarded.integerPrefix text =
    (pure (Decimal.integerPrefix text) : Guarded Id Int64)
  real : ∀ text, Guarded.realSpelling text =
    (pure ((Decimal.realLiteral? text).map Decimal.RealLiteral.spelling) :
      Guarded Id (Option (List Char)))
  sweep : ∀ budget, Guarded.sweep heap budget =
    (pure (heap.sweep budget) : Guarded Id (SweepStats × Heap σ))
  unwind : ∀ mark, Guarded.unwind heap mark = (pure (heap.unwind mark) : Guarded Id (Heap σ))
  onTheWay : ∀ heap' : Heap σ, Heap.Leads True 0 heap heap' →
    (∀ payload, Guarded.create heap' payload =
      (pure (heap'.create payload) : Guarded Id (Value × Heap σ))) ∧
    (∀ value, Guarded.release heap' value = (pure (heap'.release value) : Guarded Id (Heap σ))) ∧
    ∀ index, Guarded.reclaim heap' index = (pure (heap'.reclaim index) : Guarded Id (Heap σ))

/-- Everything is in range if the books of the slab are in order and hashes count their pairs. -/
theorem Heap.InRange.of_tallied {heap : Heap σ} (consistent : heap.Consistent)
    (ordered : heap.SlabOrdered) (tallied : heap.TablesTallied) : heap.InRange where
  request := Guarded.perform_eq ordered tallied.removeKey
  removal := tallied.removeKey
  sort := Guarded.sortItems_eq
  linearSeek := Guarded.linearSeek_eq heap
  binarySeek := Guarded.binarySeek_eq heap
  locate := Guarded.locate_eq heap
  nextPair := Guarded.nextPair_eq heap
  getPath := Guarded.getPath_eq heap
  integer := Guarded.integerPrefix_eq
  real := Guarded.realSpelling_eq
  sweep := Guarded.sweep_eq consistent ordered
  unwind := Guarded.unwind_eq heap
  onTheWay := fun heap' leads => by
    obtain ⟨-, -, orderedThere, -⟩ := leads.ordered consistent ordered
    exact ⟨Guarded.create_eq orderedThere, Guarded.release_eq heap',
      Guarded.reclaim_eq orderedThere⟩

namespace Session

variable {session : Session σ}

/-- Nothing that is asked of a heap missteps, as long as buckets are written through their tables
only and no hash is copied while a pair of it is being made. -/
theorem Reaches.inRange {config : Config}
    (reaches : Reaches (fun session event => event.Separate session.heap) (.start config) session) :
    session.heap.InRange := by
  obtain ⟨ordered, -⟩ := reaches.runs.slab_in_order .refl
  exact .of_tallied reaches.runs.proper_new.toConsistent ordered reaches.tablesTallied

/-- A hash with two strings as keys, one of them a scratch string, and an empty array. -/
def keyingScript : List (Event .bare) :=
  [.request .hash, .request (.arrayOf []), .request (.string "a"),
    .request (.setKey (.cell ⟨0, 0⟩) (.cell ⟨2, 0⟩) (.cell ⟨0, 0⟩)), .openScope,
    .request (.scratchString "b"), .request (.setKey (.cell ⟨0, 0⟩) (.scratch ⟨0, 0⟩) .null),
    .closeScope]

theorem isSome_keying : (run? (fun session event => event.Careful session.heap)
    (.start { hashBuckets := 2 }) keyingScript).isSome = true := by
  decide +kernel

/-- The session in which the array is no key yet. -/
def keyed : Session .bare :=
  (run? (fun session event => event.Careful session.heap) (.start { hashBuckets := 2 })
    keyingScript).get isSome_keying

/-- The array becomes a key as well, which is no careful event. -/
def arrayKeying : Event .bare :=
  .request (.setKey (.cell ⟨0, 0⟩) (.cell ⟨1, 0⟩) .null)

theorem isSome_arrayKeying : (keyed.next? arrayKeying).isSome = true := by
  decide +kernel

def arrayKeyed : Session .bare :=
  (keyed.next? arrayKeying).get isSome_arrayKeying

theorem inRange_arrayKeyed :
    Reaches (fun session event => event.Separate session.heap) (.start { hashBuckets := 2 })
        arrayKeyed ∧
      ¬arrayKeying.Careful keyed.heap ∧
      arrayKeyed.heap.hasKey (.cell ⟨0, 0⟩) (.cell ⟨1, 0⟩) = true ∧
      arrayKeyed.heap.pairCount (.cell ⟨0, 0⟩) = 3 ∧ arrayKeyed.heap.InRange := by
  have before := (reaches_of_run? .refl (Option.some_get isSome_keying).symm).separate
  have separate : arrayKeying.Separate keyed.heap := fun scratch => absurd scratch (by decide)
  have reaches := before.step separate (moves_of_next? (Option.some_get isSome_arrayKeying).symm)
  exact ⟨reaches, by decide +kernel, by decide +kernel, by decide +kernel, reaches.inRange⟩

/-- A hash is stored in itself under a scratch array that holds it. -/
def nestingScript : List (Event .bare) :=
  [.request .hash, .openScope, .request (.scratchArray 1),
    .request (.pushItem (.scratch ⟨0, 0⟩) (.cell ⟨0, 0⟩)),
    .request (.setKey (.cell ⟨0, 0⟩) (.scratch ⟨0, 0⟩) .null), .closeScope]

theorem isSome_nesting :
    (run? (fun session event => ¬session.heap.IsBucket (event.site session.heap))
      (.start { hashBuckets := 1 }) nestingScript).isSome = true := by
  decide +kernel

/-- The copy of the hash in the key has a pair that it does not count.  Buckets were written through
their tables only, and still removing the pair missteps. -/
theorem removal_missteps : ∃ session : Session .bare,
    Reaches (fun session event => ¬session.heap.IsBucket (event.site session.heap))
        (.start { hashBuckets := 1 }) session ∧
      session.heap.Issued (.cell ⟨3, 0⟩) ∧
      session.heap.removeKey (.cell ⟨3, 0⟩) .null = .error .pairCount ∧
      Guarded.eraseKey session.heap (.cell ⟨3, 0⟩) .null = throw .difference := by
  have reaches := reaches_of_run? .refl (Option.some_get isSome_nesting).symm
  have failed : ((run? _ _ nestingScript).get isSome_nesting).heap.removeKey (.cell ⟨3, 0⟩) .null =
      .error .pairCount := by
    rw [Heap.removeKey, if_pos (by decide +kernel)]
  exact ⟨_, reaches, by decide +kernel, failed, Guarded.eraseKey_missteps failed⟩

end Session

end CountedHeap
