import CountedHeap.Proofs.Calls
import CountedHeap.Proofs.Changes
import CountedHeap.Proofs.Sessions

/-!
Contract: runs of a heap by callers of whom nothing is asked.

A session keeps an account of what its program holds.  A run keeps none: a caller may name
handles that were never issued, and may release what it did not retain.  Scopes are opened and
closed in pairs; a state in the middle of a scope is the end of a run in which the scope was not
opened.

Owns:
- runs, and that every run is a trace;
- calls are runs, if the natives of the host are;
- the heap of a session is the end of a run;
- runs that are computed.

Does not own: what a trace leaves alone.
-/

namespace CountedHeap

variable {σ : Signature} {loose : Prop} {floor : Nat}

namespace Heap

variable {first heap heap' heap'' : Heap σ}

/-- What can be done with a heap, and the heaps that this leads to. -/
inductive Runs (loose : Prop) : Heap σ → Heap σ → Prop
  | refl {first : Heap σ} : Runs loose first first
  | create {first heap : Heap σ} (before : Runs loose first heap) {payload : Payload σ}
      (storable : ∀ child ∈ payload.children, Storable loose child) :
      Runs loose first (heap.create payload).2
  | request {first heap heap' : Heap σ} (before : Runs loose first heap) {request : Request σ}
      (done : heap.perform request = .ok heap') : Runs loose first heap'
  | retain {first heap : Heap σ} (before : Runs loose first heap) (value : Value) :
      Runs loose first (heap.retain value)
  | release {first heap : Heap σ} (before : Runs loose first heap) (value : Value) :
      Runs loose first (heap.release value)
  | sweep {first heap : Heap σ} (before : Runs loose first heap) (budget : Budget) :
      Runs loose first (heap.sweep budget).2
  /-- A scope is opened, and closed when the body has run. -/
  | scope {first heap heap' : Heap σ} (before : Runs loose first heap)
      (body : Runs loose heap heap') : Runs loose first (heap'.unwind heap.scratch.size)
  /-- A sort by a comparator takes the items out of the sequence. -/
  | detach {first heap : Heap σ} (before : Runs loose first heap) (sequence : Value) :
      Runs loose first (heap.setChildren sequence [])
  /-- It puts the items back. -/
  | restore {first heap : Heap σ} (before : Runs loose first heap) (sequence : Value)
      {items : List Value} (storable : ∀ item ∈ items, Storable loose item) :
      Runs loose first (heap.restoreItems sequence items)

theorem Runs.trans (before : Runs loose first heap) (after : Runs loose heap heap') :
    Runs loose first heap' := by
  induction after with
  | refl => exact before
  | create _ storable inductionHypothesis => exact .create (inductionHypothesis before) storable
  | request _ done inductionHypothesis => exact .request (inductionHypothesis before) done
  | retain _ value inductionHypothesis => exact .retain (inductionHypothesis before) value
  | release _ value inductionHypothesis => exact .release (inductionHypothesis before) value
  | sweep _ budget inductionHypothesis => exact .sweep (inductionHypothesis before) budget
  | scope _ body inductionHypothesis _ => exact .scope (inductionHypothesis before) body
  | detach _ sequence inductionHypothesis => exact .detach (inductionHypothesis before) sequence
  | restore _ sequence storable inductionHypothesis =>
      exact .restore (inductionHypothesis before) sequence storable

theorem Runs.retainAll (before : Runs loose first heap) (values : List Value) :
    Runs loose first (heap.retainAll values) := by
  induction values generalizing heap with
  | nil => exact before
  | cons value rest inductionHypothesis => exact inductionHypothesis (before.retain value)

theorem Runs.releaseAll (before : Runs loose first heap) (values : List Value) :
    Runs loose first (heap.releaseAll values) := by
  induction values generalizing heap with
  | nil => exact before
  | cons value rest inductionHypothesis => exact inductionHypothesis (before.release value)

/-! ## Runs as traces -/

/-- A run is a trace, and drops nothing that was in the pool when it began. -/
theorem Runs.leads (runs : Runs loose first heap) (proper : first.Proper loose)
    (inside : floor ≤ first.scratch.size) : Leads loose floor first heap := by
  induction runs generalizing floor with
  | refl => exact .refl _
  | create _ storable inductionHypothesis =>
      exact (inductionHypothesis proper inside).trans (.create storable)
  | request _ done inductionHypothesis =>
      have before := inductionHypothesis proper inside
      exact before.trans (.perform (before.proper proper) (before.floor_le inside) done)
  | retain _ value inductionHypothesis =>
      exact (inductionHypothesis proper inside).trans (.retain _ value)
  | release _ value inductionHypothesis =>
      exact (inductionHypothesis proper inside).trans (.release _ value)
  | sweep _ budget inductionHypothesis =>
      exact (inductionHypothesis proper inside).trans (.sweep _ budget)
  | scope _ _ inductionHypothesis bodyHypothesis =>
      have before := inductionHypothesis proper inside
      have inner := before.floor_le inside
      exact (before.trans (bodyHypothesis (before.proper proper) inner)).trans (.unwind inner)
  | detach _ sequence inductionHypothesis =>
      exact (inductionHypothesis proper inside).trans (.detach _ sequence)
  | restore _ sequence storable inductionHypothesis =>
      exact (inductionHypothesis proper inside).trans (.restoreItems storable)

theorem Runs.proper (runs : Runs loose first heap) (proper : first.Proper loose) :
    heap.Proper loose :=
  (runs.leads proper (Nat.zero_le _)).proper proper

/-- Every heap that a run from an empty one reaches is proper. -/
theorem Runs.proper_new {config : Config} (runs : Runs loose (.new config) heap) :
    heap.Proper loose :=
  runs.proper (.new loose config)

end Heap

/-! ## Calls -/

/-- An action all of whose runs are runs of the heap. -/
def Action.RunsOn {α : Type} (loose : Prop) (action : Action σ α) : Prop :=
  action.Keeps fun heap heap' => heap.Proper loose → heap.Runs loose heap'

/-- A host whose natives only run the heap on, if their calls do. -/
structure Host.RunsOn (loose : Prop) (host : Host σ) : Prop where
  plain : ∀ {call : Caller σ}, (∀ callable arguments, (call callable arguments).RunsOn loose) →
    ∀ name arguments, (host.plain name call arguments).RunsOn loose
  closure : ∀ {call : Caller σ}, (∀ callable arguments, (call callable arguments).RunsOn loose) →
    ∀ name auxiliary arguments, (host.closure name call auxiliary arguments).RunsOn loose

namespace Action

variable {α β : Type}

theorem runsOn_pure (answer : α) : (pure answer : Action σ α).RunsOn loose := by
  intro heap heap' outcome done proper
  obtain ⟨-, rfl⟩ := Action.pure_eq_ok done
  exact .refl

theorem runsOn_throw (fault : Fault) : (throw fault : Action σ α).RunsOn loose := by
  intro heap heap' outcome done proper
  obtain ⟨-, rfl⟩ := Prod.mk.inj (Except.ok.inj done)
  exact .refl

theorem runsOn_ask (question : Heap σ → α) : (Action.ask question).RunsOn loose := by
  intro heap heap' outcome done proper
  obtain ⟨-, rfl⟩ := Prod.mk.inj (Except.ok.inj done)
  exact .refl

theorem runsOn_demand (condition : Heap σ → Bool) (fault : Fault) :
    (Action.demand condition fault).RunsOn loose := by
  intro heap heap' outcome done proper
  obtain ⟨-, rfl⟩ := Prod.mk.inj (Except.ok.inj done)
  exact .refl

theorem RunsOn.bind {action : Action σ α} {next : α → Action σ β} (first : action.RunsOn loose)
    (second : ∀ answer, (next answer).RunsOn loose) : (action >>= next).RunsOn loose := by
  intro heap heap' outcome done proper
  rcases Action.bind_eq_ok done with ⟨fault, ran, -⟩ | ⟨answer, between, ran, rest⟩
  · exact first _ _ _ ran proper
  · have before := first _ _ _ ran proper
    exact before.trans (second answer _ _ _ rest (before.proper proper))

/-- An operation that is one request, which may depend on the heap. -/
theorem runsOn_grow {operation : Heap σ → Except Exhausted (α × Heap σ)}
    (request : Heap σ → Request σ)
    (same : ∀ heap, heap.perform (request heap) = Heap.settle (operation heap)) :
    (Action.grow operation).RunsOn loose := by
  intro heap heap' outcome done proper
  obtain ⟨⟨answer, after⟩, ran, last⟩ := CountedHeap.bind_eq_ok.mp done
  obtain ⟨-, rfl⟩ := Prod.mk.inj (Except.ok.inj last)
  have performed : heap.perform (request heap) = .ok after := by
    rw [same, ran]
    rfl
  exact .request .refl performed

theorem RunsOn.holding {action : Action σ α} (runsOn : action.RunsOn loose)
    (values : List Value) : (Action.holding values action).RunsOn loose := by
  intro heap heap' outcome done proper
  obtain ⟨after, ran, rfl⟩ := Action.holding_eq_ok.mp done
  have entering : heap.Runs loose (heap.retainAll values) := Heap.Runs.refl.retainAll values
  exact (entering.trans (runsOn _ _ _ ran (entering.proper proper))).releaseAll values

end Action

/-- A sort takes the items out, calls the comparator, and puts them back. -/
theorem sortItems_runsOn {call : Caller σ}
    (calls : ∀ callable arguments, (call callable arguments).RunsOn loose) (sequence : Value)
    (step : Nat) (comparator : Option Value) :
    (sortItems call sequence step comparator).RunsOn loose := by
  intro heap heap' outcome done proper
  have asks : ∀ function ∈ comparator, ∀ left right, Storable loose left → Storable loose right →
      (precedesBy call function left right).RunsOn loose := by
    intro function _ left right _ _
    exact (calls function [left, right]).bind fun _ => Action.runsOn_ask _
  rcases sortItems_eq_ok (fun heap heap' => heap.Proper loose → heap.Runs loose heap')
    (Storable loose) (fun _ _ => .refl)
    (fun _ _ _ before after proper => (before proper).trans (after ((before proper).proper proper)))
    Heap.storable_null (fun _ => proper.storable) asks done with
    ⟨-, rfl⟩ | ⟨items, items', after, found, perm, -, asking, rfl⟩
  · exact .refl
  · have detaching : heap.Runs loose (heap.setChildren sequence []) :=
      Heap.Runs.refl.detach sequence
    apply (detaching.trans (asking (detaching.proper proper))).restore sequence
    intro item member
    apply proper.storable
    rw [Heap.children_of_items? found]
    exact perm.subset member

namespace CoreNative

variable {call : Caller σ}

theorem runSort_runsOn (calls : ∀ callable arguments, (call callable arguments).RunsOn loose)
    (array : Value) (comparator : Option Value) :
    (runSort call array comparator).RunsOn loose :=
  (sortItems_runsOn calls array 1 comparator).bind fun _ => Action.runsOn_pure _

theorem runSweep_runsOn (budget : Int64) :
    (runSweep budget : Action σ Value).RunsOn loose := by
  intro heap heap' outcome done proper
  obtain ⟨-, rfl⟩ := Prod.mk.inj (Except.ok.inj done)
  have sweeping : heap.Runs loose (heap.sweep (.ofInt budget.toInt)).2 := Heap.Runs.refl.sweep _
  exact sweeping.create (by simp [Payload.children])

/-- Actions that only run the heap on obey the laws of core natives. -/
theorem nativeLaws_runsOn :
    NativeLaws fun _ (action : Action σ Value) => action.RunsOn loose where
  mono := fun runsOn _ => runsOn
  throw := fun _ fault => Action.runsOn_throw fault
  demand := fun condition fault runsOn =>
    (Action.runsOn_demand condition fault).bind fun _ => runsOn
  ask := fun question _ runsOn => (Action.runsOn_ask question).bind runsOn
  read := fun _ => Action.runsOn_ask _
  request := fun request same _ _ => Action.runsOn_grow request same
  sweep := fun _ budget => runSweep_runsOn budget

theorem run_runsOn (calls : ∀ callable arguments, (call callable arguments).RunsOn loose)
    (native : CoreNative) (arguments : List Value) :
    (native.run call arguments).RunsOn loose :=
  nativeLaws_runsOn.run calls (runSort_runsOn calls) native arguments

end CoreNative

theorem Native.run_runsOn {host : Host σ} (hosted : host.RunsOn loose) {call : Caller σ}
    (calls : ∀ callable arguments, (call callable arguments).RunsOn loose) (native : Native σ)
    (auxiliary : Value) (arguments : List Value) :
    (native.run host call auxiliary arguments).RunsOn loose := by
  cases native with
  | plain function =>
      cases function with
      | core native => exact CoreNative.run_runsOn calls native arguments
      | host name => exact hosted.plain calls name arguments
  | closure name => exact hosted.closure calls name auxiliary arguments

/-- A call of anything, at any depth, is a run. -/
theorem Host.RunsOn.exec {host : Host σ} (hosted : host.RunsOn loose) (depth : Nat)
    (callable : Value) (arguments : List Value) :
    (exec host depth callable arguments).RunsOn loose := by
  induction depth using Nat.strongRecOn generalizing callable arguments with
  | ind depth inductionHypothesis =>
      intro heap heap' outcome done proper
      rcases exec_eq_ok done with ⟨-, rfl⟩ | ⟨native, auxiliary, inner, -, rfl, ran⟩
      · exact .refl
      · have running := native.run_runsOn hosted
          (inductionHypothesis inner (Nat.lt_succ_self inner)) auxiliary arguments
        exact running.holding _ _ _ _ ran proper

theorem Host.RunsOn.execArray {host : Host σ} (hosted : host.RunsOn loose) (depth : Nat)
    (callable arguments : Value) :
    (execArray host depth callable arguments).RunsOn loose :=
  (Action.runsOn_ask _).bind fun _ => hosted.exec depth callable _

/-! ## Sessions -/

namespace Session

variable {session session' : Session σ} {first heap heap' : Heap σ} {activities : List Activity}

/-- Each activity was begun at the end of a run, and what came after it is a run. -/
def Nested (first : Heap σ) : List Activity → Heap σ → Prop
  | [], heap => first.Runs True heap
  | activity :: rest, heap =>
      ∃ begun, Nested first rest begun ∧ begun.Runs True heap ∧
        ∀ mark, activity = .scope mark → begun.scratch.size = mark

theorem Nested.andThen (nested : Nested first activities heap) (after : heap.Runs True heap') :
    Nested first activities heap' := by
  cases activities with
  | nil => exact Heap.Runs.trans nested after
  | cons activity rest =>
      obtain ⟨begun, before, inside, scope⟩ := nested
      exact ⟨begun, before, inside.trans after, scope⟩

theorem Nested.runs (nested : Nested first activities heap) : first.Runs True heap := by
  induction activities generalizing heap with
  | nil => exact nested
  | cons activity rest inductionHypothesis =>
      obtain ⟨begun, before, inside, -⟩ := nested
      exact (inductionHypothesis before).trans inside

theorem Moves.nested {event : Event σ} (moves : session.Moves event session')
    (nested : Nested first session.activities session.heap) :
    Nested first session'.activities session'.heap := by
  cases moves with
  | request issued done => exact nested.andThen (.request .refl done)
  | retain | root => exact nested.andThen (.retain .refl _)
  | release | unroot => exact nested.andThen (.release .refl _)
  | sweep => exact nested.andThen (.sweep .refl _)
  | openScope => exact ⟨session.heap, nested, .refl, fun mark same => Activity.scope.inj same⟩
  | enter => exact ⟨session.heap, nested, Heap.Runs.refl.retainAll _, fun _ same => nomatch same⟩
  | detach => exact ⟨session.heap, nested, Heap.Runs.refl.detach _, fun _ same => nomatch same⟩
  | @closeScope mark rest innermost =>
      rw [innermost] at nested
      obtain ⟨begun, before, inside, scope⟩ := nested
      have closing : begun.Runs True (session.heap.unwind begun.scratch.size) := .scope .refl inside
      rw [scope mark rfl] at closing
      exact before.andThen closing
  | leave innermost =>
      rw [innermost] at nested
      obtain ⟨begun, before, inside, -⟩ := nested
      exact before.andThen (inside.releaseAll _)
  | restore innermost =>
      rw [innermost] at nested
      obtain ⟨begun, before, inside, -⟩ := nested
      exact before.andThen (inside.restore _ fun _ _ _ => trivial)

/-- What is proved of runs holds in sessions. -/
theorem Reaches.runs {allowed : Session σ → Event σ → Prop} {config : Config}
    (reaches : Reaches allowed (.start config) session) :
    (Heap.new config).Runs True session.heap := by
  have nested : Nested (.new config) session.activities session.heap := by
    induction reaches with
    | refl => exact Heap.Runs.refl
    | step _ _ moves inductionHypothesis => exact moves.nested inductionHypothesis
  exact nested.runs

end Session

/-! ## Runs that are computed -/

namespace Heap

/-- The heap after a list of requests, unless the run is exhausted. -/
def performAll? (heap : Heap σ) : List (Request σ) → Option (Heap σ)
  | [] => some heap
  | request :: rest => (heap.perform request).toOption.bind fun heap => performAll? heap rest

theorem Runs.performAll? {first heap heap' : Heap σ} {requests : List (Request σ)}
    (before : Runs loose first heap) (done : heap.performAll? requests = some heap') :
    Runs loose first heap' := by
  induction requests generalizing heap with
  | nil =>
      obtain rfl := Option.some.inj done
      exact before
  | cons request rest inductionHypothesis =>
      obtain ⟨between, performed, last⟩ := Option.bind_eq_some_iff.mp done
      cases outcome : heap.perform request with
      | error reason =>
          rw [outcome] at performed
          contradiction
      | ok after =>
          rw [outcome] at performed
          obtain rfl := Option.some.inj performed
          exact inductionHypothesis (before.request outcome) last

end Heap

end CountedHeap
