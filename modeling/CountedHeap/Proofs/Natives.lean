import CountedHeap.Call.Dispatch
import CountedHeap.Proofs.Answers
import CountedHeap.Proofs.Requests

/-!
Contract: what the core natives are made of.

A core native checks its arguments, and then it asks the heap, performs one request, sorts, sweeps
or calls.  So what holds of checks, questions, requests and sweeps, and of the sorts and calls of
a caller, holds of every core native.

Owns: the laws that such a property obeys, and that it then holds of the core natives.

Does not own: any such property.
-/

namespace CountedHeap

variable {σ : Signature}

/-- The laws of a property of actions that are given handles. -/
structure NativeLaws (obeys : List Value → Action σ Value → Prop) : Prop where
  mono : ∀ {given given' action}, obeys given action → (∀ value ∈ given, value ∈ given') →
    obeys given' action
  throw : ∀ given fault, obeys given (throw fault)
  demand : ∀ {given action} condition fault, obeys given action →
    obeys given (Action.demand condition fault >>= fun _ => action)
  ask : ∀ {given} {α : Type} (question : Heap σ → α) {next : α → Action σ Value},
    (∀ answer, obeys given (next answer)) → obeys given (Action.ask question >>= next)
  /-- A question that is answered by an issued handle. -/
  read : ∀ {given} {question : Heap σ → Value},
    (∀ {heap : Heap σ} {held : Multiset Value}, heap.Sound held →
      (∀ value ∈ given, heap.Issued value) → heap.Issued (question heap)) →
    obeys given (Action.ask question)
  /-- An operation that is one request and answers an issued handle. -/
  request : ∀ {given} {operation : Heap σ → Except Exhausted (Value × Heap σ)}
    (request : Heap σ → Request σ),
    (∀ heap, heap.perform (request heap) = Heap.settle (operation heap)) →
    (∀ heap, ∀ value ∈ (request heap).handles, value ∈ given) →
    (∀ {heap heap' : Heap σ} {held : Multiset Value} {answer : Value}, heap.Sound held →
      (∀ value ∈ given, heap.Issued value) → operation heap = .ok (answer, heap') →
        heap'.Issued answer) →
    obeys given (Action.grow operation)
  sweep : ∀ given budget, obeys given (CoreNative.runSweep budget)

namespace NativeLaws

variable {obeys : List Value → Action σ Value → Prop} {given : List Value}

/-- A request that always succeeds. -/
theorem step (laws : NativeLaws obeys) {operation : Heap σ → Value × Heap σ}
    (request : Heap σ → Request σ)
    (same : ∀ heap : Heap σ, heap.perform (request heap) = .ok (operation heap).2)
    (handles : ∀ heap, ∀ value ∈ (request heap).handles, value ∈ given)
    (answered : ∀ {heap : Heap σ} {held : Multiset Value}, heap.Sound held →
      (∀ value ∈ given, heap.Issued value) → (operation heap).2.Issued (operation heap).1) :
    obeys given (Action.step operation) := by
  show obeys given (Action.grow fun heap => .ok (operation heap))
  apply laws.request request (fun heap => by rw [same]; rfl) handles
  intro heap heap' held answer sound issued done
  obtain ⟨rfl, rfl⟩ := Prod.mk.inj (Except.ok.inj done).symm
  exact answered sound issued

theorem answerInt (laws : NativeLaws obeys) (number : Heap σ → Int64) :
    obeys given (CoreNative.answerInt number) :=
  laws.step (fun heap => .int (number heap)) (fun _ => rfl) (by simp [Request.handles])
    fun sound _ => Heap.issued_create sound _

/-- What holds of the parts holds of every core native. -/
theorem run (laws : NativeLaws obeys) {call : Caller σ}
    (calls : ∀ callable arguments, obeys (callable :: arguments) (call callable arguments))
    (sorts : ∀ array comparator,
      obeys (array :: Option.toList comparator) (CoreNative.runSort call array comparator))
    (native : CoreNative) (arguments : List Value) :
    obeys arguments (native.run call arguments) := by
  unfold CoreNative.run
  split
  next => exact laws.answerInt _
  next value =>
    exact laws.step (fun heap => .string (heap.text value)) (fun _ => rfl)
      (by simp [Request.handles]) fun sound _ => Heap.issued_create sound _
  next => exact laws.answerInt _
  next array element =>
    apply laws.demand
    apply laws.request (fun _ => .pushItem array element) (fun _ => rfl)
    · simp [Request.handles]
    · exact fun sound issued ran => Heap.issued_insertItem sound (issued _ (by simp)) ran
  next array =>
    apply laws.demand
    apply laws.step (fun _ => .popItem array) (fun _ => rfl)
    · simp [Request.handles]
    · exact fun sound _ => Heap.issued_deleteItem sound array (-1)
  next array =>
    apply laws.demand
    exact sorts array none
  next array comparator =>
    apply laws.demand
    apply laws.demand
    exact sorts array (some comparator)
  next array =>
    apply laws.demand
    apply laws.step (fun _ => .reverseItems array) (fun _ => rfl)
    · simp [Request.handles]
    · intro heap held sound issued
      exact (Heap.Step.reverseItems sound array).keeps.issued (issued _ List.mem_cons_self)
  next table =>
    apply laws.demand
    apply laws.step (fun _ => .keys table) (fun _ => rfl)
    · simp [Request.handles]
    · intro heap held sound _
      apply Heap.issued_arrayOf sound
      intro key member
      obtain ⟨pair, inside, rfl⟩ := List.mem_map.mp member
      exact (Heap.issued_pairs sound inside).1
  next table =>
    apply laws.demand
    apply laws.step (fun _ => .values table) (fun _ => rfl)
    · simp [Request.handles]
    · intro heap held sound _
      apply Heap.issued_arrayOf sound
      intro value member
      obtain ⟨pair, inside, rfl⟩ := List.mem_map.mp member
      exact (Heap.issued_pairs sound inside).2
  next =>
    apply laws.demand
    exact laws.answerInt _
  next root path =>
    apply laws.read
    exact fun sound issued => Heap.issued_follow sound (issued root List.mem_cons_self) _
  next root path value =>
    apply laws.request (fun _ => .setPath root path value) (fun _ => rfl)
    · simp [Request.handles]
    · exact fun sound issued ran => Heap.issued_setPath sound (issued value (by simp)) ran
  next separator characters =>
    apply laws.demand
    apply laws.request (fun _ => .split separator characters) (fun _ => rfl)
    · simp [Request.handles]
    · exact fun sound _ ran => Heap.issued_split sound ran
  next separator array =>
    apply laws.demand
    apply laws.step (fun _ => .join separator array) (fun _ => rfl)
    · simp [Request.handles]
    · exact fun sound _ => Heap.issued_join sound separator array
  next callable arguments =>
    apply laws.demand
    exact calls callable arguments
  next => exact laws.sweep _ _
  next budget =>
    apply laws.ask
    exact fun _ => laws.sweep _ _
  next => exact laws.throw _ _

end NativeLaws

end CountedHeap
