import CountedHeap.Proofs.Sessions

/-!
Contract: runs of sessions can be computed.

Owns:
- whether a handle was issued, and whether a value is the array of a bucket, as decidable
  questions;
- `next?`, which computes the events, and `run?`, which computes lists of them;
- the signature of programs that add no callables.
-/

namespace CountedHeap

variable {σ : Signature}

/-- The signature of a program that adds no callables of its own. -/
def Signature.bare : Signature :=
  ⟨Empty, Empty⟩

namespace Heap

instance decidableIssued (heap : Heap σ) : (value : Value) → Decidable (heap.Issued value)
  | .null => .isTrue trivial
  | .cell id =>
      decidable_of_iff
        (heap.slots[id.index]?.any fun slot =>
          decide (id.generation < slot.generation ∨
            id.generation = slot.generation ∧ slot.cell.isSome = true))
        (by simp [Issued, Option.any_eq_true])
  | .scratch id => inferInstanceAs (Decidable (id.serial < heap.nextSerial))

theorem isBucket_iff {heap : Heap σ} {value : Value} :
    heap.IsBucket value ↔ value ≠ .null ∧ ∃ table ∈ heap.handles,
      (heap.table? table).any (fun content => decide (value ∈ content.buckets)) = true := by
  simp only [IsBucket, HasBucket, Option.any_eq_true, decide_eq_true_eq, mem_handles_iff]
  constructor
  · rintro ⟨table, present, content, found, member⟩
    exact ⟨present, table, isLive_of_table? found, content, found, member⟩
  · rintro ⟨present, table, -, content, found, member⟩
    exact ⟨table, present, content, found, member⟩

instance (heap : Heap σ) (value : Value) : Decidable (heap.IsBucket value) :=
  decidable_of_iff _ isBucket_iff.symm

theorem careful_iff {heap : Heap σ} {request : Request σ} :
    heap.Careful request ↔ ¬heap.IsBucket (heap.site request) ∧
      ∀ key ∈ request.key?, (heap.kind key).hasFixedText = true :=
  ⟨fun careful => ⟨careful.site, careful.key⟩, fun ⟨site, key⟩ => ⟨site, key⟩⟩

instance (heap : Heap σ) (request : Request σ) : Decidable (heap.Careful request) :=
  decidable_of_iff _ careful_iff.symm

end Heap

instance (heap : Heap σ) (event : Event σ) : Decidable (event.Careful heap) := by
  cases event <;> unfold Event.Careful <;> infer_instance

namespace Session

/-- The session after an event, if the event can happen. -/
def next? (session : Session σ) : Event σ → Option (Session σ)
  | .request asked =>
      if ∀ value ∈ asked.handles, session.heap.Issued value then
        match session.heap.perform asked with
        | .ok heap => some { session with heap }
        | .error _ => none
      else none
  | .retain value =>
      if session.heap.Issued value then
        some { session with
          heap := session.heap.retain value, owners := value ::ₘ session.owners }
      else none
  | .release value =>
      if value ∈ session.owners then
        some { session with
          heap := session.heap.release value, owners := session.owners.erase value }
      else none
  | .root value =>
      if session.heap.Issued value then
        some { session with
          heap := (session.heap.root value).2
          owners := (session.heap.root value).1.value ::ₘ session.owners }
      else none
  | .unroot root =>
      if root.value ∈ session.owners then
        some { session with
          heap := (session.heap.unroot root).2, owners := session.owners.erase root.value }
      else none
  | .openScope =>
      some { session with
        activities := .scope session.heap.scratch.size :: session.activities }
  | .closeScope =>
      match session.activities with
      | .scope mark :: rest =>
          some { session with heap := session.heap.unwind mark, activities := rest }
      | _ => none
  | .sweep budget => some { session with heap := (session.heap.sweep budget).2 }
  | .enter callable arguments =>
      if ∀ value ∈ callable :: arguments, session.heap.Issued value then
        some { session with
          heap := session.heap.retainAll (callable :: arguments)
          activities := .call callable arguments :: session.activities }
      else none
  | .leave =>
      match session.activities with
      | .call callable arguments :: rest =>
          some { session with
            heap := session.heap.releaseAll (callable :: arguments), activities := rest }
      | _ => none
  | .detach sequence =>
      match session.heap.items? sequence with
      | some items =>
          some { session with
            heap := session.heap.setChildren sequence []
            activities := .sort sequence items :: session.activities }
      | none => none
  | .restore sequence items =>
      match session.activities with
      | .sort other detached :: rest =>
          if other = sequence ∧ items.Perm detached then
            some { session with
              heap := session.heap.restoreItems sequence items, activities := rest }
          else none
      | _ => none

/-- What is computed is what an event does. -/
theorem moves_of_next? {session session' : Session σ} {event : Event σ}
    (done : session.next? event = some session') : session.Moves event session' := by
  cases event with
  | request asked =>
      simp only [next?, Option.ite_none_right_eq_some] at done
      obtain ⟨issued, done⟩ := done
      split at done
      next heap performed =>
        obtain rfl := Option.some.inj done
        exact .request issued performed
      next => contradiction
  | retain value =>
      simp only [next?, Option.ite_none_right_eq_some] at done
      obtain ⟨issued, done⟩ := done
      obtain rfl := Option.some.inj done
      exact .retain issued
  | release value =>
      simp only [next?, Option.ite_none_right_eq_some] at done
      obtain ⟨owned, done⟩ := done
      obtain rfl := Option.some.inj done
      exact .release owned
  | root value =>
      simp only [next?, Option.ite_none_right_eq_some] at done
      obtain ⟨issued, done⟩ := done
      obtain rfl := Option.some.inj done
      exact .root issued
  | unroot root =>
      simp only [next?, Option.ite_none_right_eq_some] at done
      obtain ⟨owned, done⟩ := done
      obtain rfl := Option.some.inj done
      exact .unroot owned
  | openScope =>
      obtain rfl := Option.some.inj done
      exact .openScope
  | closeScope =>
      simp only [next?] at done
      split at done
      next innermost =>
        obtain rfl := Option.some.inj done
        exact .closeScope innermost
      next => contradiction
  | sweep budget =>
      obtain rfl := Option.some.inj done
      exact .sweep
  | enter callable arguments =>
      simp only [next?, Option.ite_none_right_eq_some] at done
      obtain ⟨issued, done⟩ := done
      obtain rfl := Option.some.inj done
      exact .enter issued
  | leave =>
      simp only [next?] at done
      split at done
      next innermost =>
        obtain rfl := Option.some.inj done
        exact .leave innermost
      next => contradiction
  | detach sequence =>
      simp only [next?] at done
      split at done
      next found =>
        obtain rfl := Option.some.inj done
        exact .detach found
      next => contradiction
  | restore sequence items =>
      simp only [next?] at done
      split at done
      next innermost =>
        simp only [Option.ite_none_right_eq_some] at done
        obtain ⟨⟨rfl, perm⟩, done⟩ := done
        obtain rfl := Option.some.inj done
        exact .restore innermost perm
      next => contradiction

/-- The session after a list of events, if all of them are allowed and can happen. -/
def run? (allowed : Session σ → Event σ → Prop) [∀ session event, Decidable (allowed session event)]
    (session : Session σ) : List (Event σ) → Option (Session σ)
  | [] => some session
  | event :: rest =>
      if allowed session event then
        (session.next? event).bind fun session' => run? allowed session' rest
      else none

theorem reaches_of_run? {allowed : Session σ → Event σ → Prop}
    [∀ session event, Decidable (allowed session event)] {first session session' : Session σ}
    {events : List (Event σ)} (before : Reaches allowed first session)
    (ran : run? allowed session events = some session') : Reaches allowed first session' := by
  induction events generalizing session with
  | nil =>
      obtain rfl := Option.some.inj ran
      exact before
  | cons event rest inductionHypothesis =>
      simp only [run?] at ran
      split at ran
      next allows =>
        obtain ⟨between, moved, ran⟩ := Option.bind_eq_some_iff.mp ran
        exact inductionHypothesis (.step before allows (moves_of_next? moved)) ran
      next => contradiction

end Session

end CountedHeap
