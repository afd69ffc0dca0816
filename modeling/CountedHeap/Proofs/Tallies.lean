import CountedHeap.Proofs.Layout

/-!
Contract: hashes count their pairs.

Storing under a new key counts its pair last.  Before that it copies the key, if this is a scratch
value, and a copy of the hash that is made on the way holds the pair without counting it.  Nothing
else makes a count wrong.

Owns:
- the events that keep the counts right, among them all careful ones;
- every hash of a session of such events counts its pairs, so a pair that is there can be removed.

Does not own: the order of the pairs, for which keys have to keep their texts.
-/

namespace CountedHeap

variable {σ : Signature} {heap : Heap σ}

/-- A hash that counts its pairs has counted the one that is removed. -/
theorem Heap.TablesTallied.removeKey (tallied : heap.TablesTallied) (table key : Value) :
    heap.removeKey table key = .ok (heap.eraseKey table key) := by
  rw [Heap.removeKey, if_neg]
  intro uncounted
  obtain ⟨has, zero⟩ := Bool.and_eq_true_iff.mp uncounted
  obtain ⟨⟨bucket, index⟩, located⟩ := Option.isSome_iff_exists.mp has
  obtain ⟨content, items, found, member, itemsFound, inside⟩ := Heap.locate?_eq_some located
  obtain ⟨slot, place⟩ := List.mem_iff_getElem?.mp member
  have whole := Heap.length_pairs_cut heap place
  have pairs : heap.bucketPairs bucket = pairUp items := by
    rw [Heap.bucketPairs, itemsFound]
  have none : content.pairs = 0 := by simpa [Heap.pairCount, found] using zero
  rw [← tallied (Set.notMem_empty _) found, none, pairs, length_pairUp] at whole
  omega

namespace Event

/-- An event that writes no bucket but through its table, and copies no hash while a pair of it is
being made. -/
def Separate (heap : Heap σ) : Event σ → Prop
  | .request (.setKey table key _) =>
      key.isScratch = true → heap.kind table = .hash → ¬heap.Below key table
  | event => ¬heap.IsBucket (event.site heap)

variable {event : Event σ}

theorem Careful.separate {held : Multiset Value} (careful : event.Careful heap)
    (sound : heap.Sound held) : event.Separate heap := by
  cases event with
  | request asked =>
      have keeps : heap.Careful asked := careful
      cases asked with
      | setKey table key value =>
          intro scratch isHash
          exact sound.not_below_of_fixed (keeps.key key rfl) scratch isHash
      | _ => exact keeps.site
  | _ => exact careful

/-- A separate event that stores no pair under a given key is careful. -/
theorem Separate.careful (separate : event.Separate heap)
    (other : ∀ table key value, event ≠ .request (.setKey table key value)) :
    event.Careful heap := by
  cases event with
  | request asked =>
      cases asked with
      | setKey table key value => exact absurd rfl (other table key value)
      | _ => exact { site := separate, key := by simp [Request.key?] }
  | _ => exact separate

end Event

namespace Session

variable {session session' : Session σ} {event : Event σ} {leaked : Multiset Value}

/-- What one separate event does to the counts. -/
theorem Moves.tablesTallied (moves : session.Moves event session') (sound : session.Sound leaked)
    (separate : event.Separate session.heap) (tallied : session.heap.TablesTallied) :
    session'.heap.TablesTallied := by
  by_cases storing : ∃ table key value, event = .request (.setKey table key value)
  · obtain ⟨table, key, value, rfl⟩ := storing
    cases moves with
    | request issued done =>
        obtain ⟨answer, stored⟩ := Heap.settle_eq_ok done
        exact Heap.tallied_setKey sound.heap (issued key (by simp [Request.handles]))
          (issued value (by simp [Request.handles])) separate stored tallied
  · obtain ⟨leaked', outcome⟩ := moves.outcome sound
    rcases outcome.cells with ⟨-, -, tallies⟩ | thins
    · refine tallies (separate.careful fun table key value equal => ?_) tallied
      exact storing ⟨table, key, value, equal⟩
    · exact thins.tablesTallied sound.heap tallied

/-- A session of careful events is one of separate events. -/
theorem Reaches.separate {config : Config}
    (reaches : Reaches (fun session event => event.Careful session.heap) (.start config) session) :
    Reaches (fun session event => event.Separate session.heap) (.start config) session := by
  induction reaches with
  | refl => exact .refl
  | step before careful moves inductionHypothesis =>
      obtain ⟨leaked, sound⟩ := before.sound (sound_start config)
      exact .step inductionHypothesis (careful.separate sound.heap) moves

/-- Every hash counts its pairs as long as buckets are written through their tables only, and no
hash is copied while a pair of it is being made. -/
theorem Reaches.tablesTallied {config : Config}
    (reaches : Reaches (fun session event => event.Separate session.heap) (.start config) session) :
    session.heap.TablesTallied := by
  have all : (∃ leaked, session.Sound leaked) ∧ session.heap.TablesTallied := by
    induction reaches with
    | refl =>
        refine ⟨⟨0, sound_start config⟩, fun table content _ found => ?_⟩
        rw [start, Heap.table?_eq_some_iff,
          Heap.payload_of_not_isLive (Heap.not_isLive_new config table)] at found
        contradiction
    | step _ separate moves inductionHypothesis =>
        obtain ⟨⟨leaked, sound⟩, tallied⟩ := inductionHypothesis
        obtain ⟨leaked', outcome⟩ := moves.outcome sound
        exact ⟨⟨leaked', outcome.sound⟩, moves.tablesTallied sound separate tallied⟩
  exact all.2

end Session

end CountedHeap
