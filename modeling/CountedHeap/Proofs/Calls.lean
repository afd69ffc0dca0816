import CountedHeap.Proofs.Natives
import CountedHeap.Proofs.Sessions

/-!
Contract: calls are runs of a session.

A caller asks for a whole call and gets an answer.  A session sees the events in between.  The
views agree: if every native of the host does what it does by events, then so does every call of
every value, whatever the natives call in turn.

Owns:
- actions that are carried out by events;
- sorts by a comparator, core natives and calls as such actions.

Does not own: what the natives of a host do.
-/

namespace CountedHeap

variable {σ : Signature}

namespace Session

variable {session session' session'' : Session σ} {leaked : Multiset Value}

theorem Reaches.trans {allowed : Session σ → Event σ → Prop}
    (first : Reaches allowed session session') (second : Reaches allowed session' session'') :
    Reaches allowed session session'' := by
  induction second with
  | refl => exact first
  | step _ allows moves inductionHypothesis => exact .step inductionHypothesis allows moves

theorem Moves.reaches {event : Event σ} (moves : session.Moves event session') :
    Reaches (fun _ _ => True) session session' :=
  .step .refl trivial moves

/-- No event takes back a handle. -/
theorem Reaches.issued {allowed : Session σ → Event σ → Prop} (sound : session.Sound leaked)
    (reaches : Reaches allowed session session') {value : Value}
    (issued : session.heap.Issued value) : session'.heap.Issued value := by
  induction reaches with
  | refl => exact issued
  | step before _ moves inductionHypothesis =>
      obtain ⟨between, soundBetween⟩ := before.sound sound
      obtain ⟨leaked', outcome⟩ := moves.outcome soundBetween
      rcases outcome.cells with ⟨keeps, -⟩ | thins
      · exact keeps.issued inductionHypothesis
      · exact thins.issued inductionHypothesis

/-- A run that ends in the middle of what it began in. -/
structure Resumes (session session' : Session σ) : Prop where
  reaches : Reaches (fun _ _ => True) session session'
  activities : session'.activities = session.activities

theorem Resumes.refl (session : Session σ) : Resumes session session :=
  ⟨.refl, rfl⟩

theorem Resumes.trans (first : Resumes session session') (second : Resumes session' session'') :
    Resumes session session'' :=
  ⟨first.reaches.trans second.reaches, second.activities.trans first.activities⟩

end Session

/-! ## Actions as runs -/

/-- An action that is carried out by events.  Where the handles it is given are issued, the heap
that it leaves is the heap of a session that resumes this one, and what it answers is as
`answers` says. -/
def Action.IsRun {α : Type} (given : List Value) (answers : Heap σ → α → Prop)
    (action : Action σ α) : Prop :=
  ∀ ⦃session : Session σ⦄ ⦃leaked : Multiset Value⦄, session.Sound leaked →
    (∀ value ∈ given, session.heap.Issued value) →
      ∀ ⦃outcome : Except Fault α⦄ ⦃heap' : Heap σ⦄,
        action session.heap = .ok (outcome, heap') →
          ∃ session', session.Resumes session' ∧ session'.heap = heap' ∧
            ∀ answer, outcome = .ok answer → answers heap' answer

/-- A caller all of whose calls are runs. -/
def Caller.Lawful (call : Caller σ) : Prop :=
  ∀ callable arguments, (call callable arguments).IsRun (callable :: arguments) Heap.Issued

/-- A host all of whose natives are runs if their calls are. -/
structure Host.Lawful (host : Host σ) : Prop where
  plain : ∀ {call : Caller σ}, call.Lawful → ∀ name arguments,
    (host.plain name call arguments).IsRun arguments Heap.Issued
  closure : ∀ {call : Caller σ}, call.Lawful → ∀ name auxiliary arguments,
    (host.closure name call auxiliary arguments).IsRun (auxiliary :: arguments) Heap.Issued

namespace Action

variable {α : Type} {given given' : List Value} {answers : Heap σ → α → Prop}
  {action : Action σ α}

theorem IsRun.mono (isRun : action.IsRun given answers) (more : ∀ value ∈ given, value ∈ given') :
    action.IsRun given' answers := by
  intro session leaked sound issued
  exact isRun sound fun value member => issued value (more value member)

theorem isRun_throw (fault : Fault) : (throw fault : Action σ α).IsRun given answers := by
  intro session leaked sound issued outcome heap' done
  obtain ⟨rfl, rfl⟩ := Prod.mk.inj (Except.ok.inj done)
  exact ⟨session, .refl session, rfl, nofun⟩

/-- A check does nothing to the heap, whether or not it lets the action run. -/
theorem demand_eq_ok {condition : Heap σ → Bool} {fault : Fault} {heap heap' : Heap σ}
    {outcome : Except Fault α}
    (done : (Action.demand condition fault >>= fun _ => action) heap = .ok (outcome, heap')) :
    (∃ raised, outcome = .error raised) ∧ heap' = heap ∨ action heap = .ok (outcome, heap') := by
  rcases Action.bind_eq_ok done with ⟨raised, checked, rfl⟩ | ⟨passed, between, checked, rest⟩
  · obtain ⟨-, rfl⟩ := Prod.mk.inj (Except.ok.inj checked)
    exact .inl ⟨⟨raised, rfl⟩, rfl⟩
  · obtain ⟨-, rfl⟩ := Prod.mk.inj (Except.ok.inj checked)
    exact .inr rest

theorem IsRun.demand (isRun : action.IsRun given answers) (condition : Heap σ → Bool)
    (fault : Fault) :
    (Action.demand condition fault >>= fun _ => action).IsRun given answers := by
  intro session leaked sound issued outcome heap' done
  rcases demand_eq_ok done with ⟨⟨raised, rfl⟩, rfl⟩ | passed
  · exact ⟨session, .refl session, rfl, nofun⟩
  · exact isRun sound issued passed

theorem IsRun.ask {β : Type} {question : Heap σ → β} {next : β → Action σ α}
    (isRun : ∀ answer, (next answer).IsRun given answers) :
    (Action.ask question >>= next).IsRun given answers := by
  intro session leaked sound issued outcome heap' done
  exact isRun (question session.heap) sound issued done

/-- An operation that is one request. -/
theorem isRun_grow {operation : Heap σ → Except Exhausted (Value × Heap σ)}
    (request : Heap σ → Request σ)
    (same : ∀ heap, heap.perform (request heap) = Heap.settle (operation heap))
    (handles : ∀ heap, ∀ value ∈ (request heap).handles, value ∈ given)
    (answered : ∀ {heap heap' : Heap σ} {held : Multiset Value} {answer : Value},
      heap.Sound held → (∀ value ∈ given, heap.Issued value) →
        operation heap = .ok (answer, heap') → heap'.Issued answer) :
    (Action.grow operation).IsRun given Heap.Issued := by
  intro session leaked sound issued outcome heap' done
  obtain ⟨⟨answer, after⟩, ran, last⟩ := CountedHeap.bind_eq_ok.mp done
  obtain ⟨rfl, rfl⟩ := Prod.mk.inj (Except.ok.inj last)
  have performed : session.heap.perform (request session.heap) = .ok after := by
    rw [same, ran]
    rfl
  have moves : session.Moves (.request (request session.heap)) { session with heap := after } :=
    .request (fun value member => issued value (handles _ value member)) performed
  refine ⟨_, ⟨moves.reaches, rfl⟩, rfl, fun value equal => ?_⟩
  exact Except.ok.inj equal ▸ answered sound.heap issued ran

theorem holding_eq_ok {values : List Value} {action : Action σ α}
    {heap heap' : Heap σ} {outcome : Except Fault α} :
    Action.holding values action heap = .ok (outcome, heap') ↔
      ∃ after, action (heap.retainAll values) = .ok (outcome, after) ∧
        heap' = after.releaseAll values := by
  constructor
  · intro done
    obtain ⟨⟨result, after⟩, ran, last⟩ := CountedHeap.bind_eq_ok.mp done
    obtain ⟨rfl, rfl⟩ := Prod.mk.inj (Except.ok.inj last)
    exact ⟨after, ran, rfl⟩
  · rintro ⟨after, ran, rfl⟩
    exact CountedHeap.bind_eq_ok.mpr ⟨(outcome, after), ran, rfl⟩

/-- Holding values is entering a call and leaving it, on both ways out. -/
theorem IsRun.holding {action : Action σ Value} (isRun : action.IsRun given Heap.Issued)
    {callable : Value} {arguments : List Value}
    (covered : ∀ value ∈ callable :: arguments, value ∈ given) :
    (Action.holding (callable :: arguments) action).IsRun given Heap.Issued := by
  intro session leaked sound issued outcome heap' done
  obtain ⟨after, ran, rfl⟩ := holding_eq_ok.mp done
  have entering : session.Moves (.enter callable arguments) _ :=
    .enter fun value member => issued value (covered value member)
  obtain ⟨leakedInside, entered⟩ := entering.reaches.sound sound
  obtain ⟨inside, resumes, rfl, answered⟩ := isRun entered
    (fun value member => entering.reaches.issued sound (issued value member)) ran
  have leaving : inside.Moves .leave _ := .leave resumes.activities
  obtain ⟨leakedAfter, soundInside⟩ := resumes.reaches.sound entered
  refine ⟨_, ⟨(entering.reaches.trans resumes.reaches).trans leaving.reaches, rfl⟩, rfl,
    fun answer equal => ?_⟩
  exact leaving.reaches.issued soundInside (answered answer equal)

end Action

/-! ## Sorts -/

/-- A comparison is one call. -/
theorem precedesBy_isRun {call : Caller σ} (lawful : call.Lawful) (comparator left right : Value) :
    (precedesBy call comparator left right).IsRun [comparator, left, right]
      fun _ _ => True := by
  intro session leaked sound issued outcome heap' done
  rcases Action.bind_eq_ok done with ⟨fault, called, rfl⟩ | ⟨answer, between, called, rest⟩
  · obtain ⟨after, resumes, same, -⟩ := lawful comparator [left, right] sound issued called
    exact ⟨after, resumes, same, nofun⟩
  · obtain ⟨-, rfl⟩ := Prod.mk.inj (Except.ok.inj rest)
    obtain ⟨after, resumes, same, -⟩ := lawful comparator [left, right] sound issued called
    exact ⟨after, resumes, same, fun _ _ => trivial⟩

/-- One heap can become another by events, in whatever session it is used and the handles are
issued. -/
def Heap.Continues (given : List Value) (heap heap' : Heap σ) : Prop :=
  ∀ ⦃session : Session σ⦄ ⦃leaked : Multiset Value⦄, session.Sound leaked →
    session.heap = heap → (∀ value ∈ given, session.heap.Issued value) →
      ∃ session', session.Resumes session' ∧ session'.heap = heap'

theorem Heap.Continues.refl (given : List Value) (heap : Heap σ) : heap.Continues given heap :=
  fun session _ _ same _ => ⟨session, .refl session, same⟩

theorem Heap.Continues.trans {given : List Value} {heap heap' heap'' : Heap σ}
    (first : heap.Continues given heap') (second : heap'.Continues given heap'') :
    heap.Continues given heap'' := by
  intro session leaked sound same issued
  obtain ⟨middle, toMiddle, sameMiddle⟩ := first sound same issued
  obtain ⟨leakedMiddle, soundMiddle⟩ := toMiddle.reaches.sound sound
  obtain ⟨last, toLast, sameLast⟩ := second soundMiddle sameMiddle
    fun value member => toMiddle.reaches.issued sound (issued value member)
  exact ⟨last, toMiddle.trans toLast, sameLast⟩

theorem Action.IsRun.keeps {α : Type} {given : List Value} {answers : Heap σ → α → Prop}
    {action : Action σ α} (isRun : action.IsRun given answers) :
    action.Keeps (Heap.Continues given) := by
  intro heap heap' outcome done session leaked sound same issued
  subst same
  obtain ⟨after, resumes, same, -⟩ := isRun sound issued done
  exact ⟨after, resumes, same⟩

namespace Heap

/-- What a comparator may be called with: items of the sequence, or the absent value for an empty
record.  The comparator itself is among them. -/
def compared (heap : Heap σ) (sequence : Value) (comparator : Option Value) : List Value :=
  .null :: comparator.toList ++ heap.children sequence

variable {heap : Heap σ} {sequence : Value} {comparator : Option Value}

theorem null_mem_compared : .null ∈ heap.compared sequence comparator :=
  List.mem_append_left _ List.mem_cons_self

theorem mem_compared_of_child {item : Value} (member : item ∈ heap.children sequence) :
    item ∈ heap.compared sequence comparator :=
  List.mem_append_right _ member

theorem comparison_subset_compared {function left right : Value}
    (isComparator : function ∈ comparator)
    (leftAmong : left ∈ heap.compared sequence comparator)
    (rightAmong : right ∈ heap.compared sequence comparator) :
    [function, left, right] ⊆ heap.compared sequence comparator := by
  have among : function ∈ heap.compared sequence comparator :=
    List.mem_append_left _ (.tail _ (Option.mem_toList.mpr isComparator))
  simp [List.cons_subset, among, leftAmong, rightAmong]

theorem issued_compared {held : Multiset Value} (sound : heap.Sound held)
    (issued : ∀ function ∈ comparator, heap.Issued function) :
    ∀ value ∈ heap.compared sequence comparator, heap.Issued value := by
  intro value member
  rcases List.mem_append.mp member with early | isItem
  · rcases List.mem_cons.mp early with rfl | isComparator
    · exact issued_null
    · exact issued value (Option.mem_toList.mp isComparator)
  · exact sound.issued_child isItem

end Heap

/-- A sort takes the items out, calls the comparator, and puts them back. -/
theorem sortItems_isRun {call : Caller σ} (lawful : call.Lawful) (sequence : Value) (step : Nat)
    (comparator : Option Value) :
    (sortItems call sequence step comparator).IsRun (sequence :: comparator.toList)
      fun _ _ => True := by
  intro session leaked sound issued outcome heap' done
  let given := session.heap.compared sequence comparator
  have asks : ∀ function ∈ comparator, ∀ left right, left ∈ given → right ∈ given →
      (precedesBy call function left right).Keeps (Heap.Continues given) := by
    intro function isComparator left right leftGiven rightGiven
    apply Action.IsRun.keeps
    apply (precedesBy_isRun lawful function left right).mono
    exact Heap.comparison_subset_compared isComparator leftGiven rightGiven
  rcases sortItems_eq_ok (Heap.Continues given) (· ∈ given) (Heap.Continues.refl given)
    (fun _ _ _ => Heap.Continues.trans) Heap.null_mem_compared
    (fun _ => Heap.mem_compared_of_child) asks done with
    ⟨-, rfl⟩ | ⟨items, items', after, found, perm, -, asking, rfl⟩
  · exact ⟨session, .refl session, rfl, fun _ _ => trivial⟩
  · have detaching : session.Moves (.detach sequence) _ := .detach found
    obtain ⟨leakedInside, detached⟩ := detaching.reaches.sound sound
    have issuedBefore : ∀ value ∈ given, session.heap.Issued value :=
      Heap.issued_compared sound.heap fun function isComparator =>
        issued function (.tail _ (Option.mem_toList.mpr isComparator))
    have issuedInside : ∀ value ∈ given, (session.heap.setChildren sequence []).Issued value :=
      fun value member => detaching.reaches.issued sound (issuedBefore value member)
    obtain ⟨inside, resumes, rfl⟩ := asking detached rfl issuedInside
    have restoring : inside.Moves (.restore sequence items') _ :=
      .restore resumes.activities perm
    exact ⟨_, ⟨(detaching.reaches.trans resumes.reaches).trans restoring.reaches, rfl⟩, rfl,
      fun _ _ => trivial⟩

/-! ## Core natives -/

namespace CoreNative

variable {call : Caller σ}

/-- A sort of an array answers the array. -/
theorem runSort_eq_ok {array : Value} {comparator : Option Value} {heap heap' : Heap σ}
    {outcome : Except Fault Value}
    (done : runSort call array comparator heap = .ok (outcome, heap')) :
    ∃ sorted, sortItems call array 1 comparator heap = .ok (sorted, heap') ∧
      (∀ answer, outcome = .ok answer → answer = array) ∧
      ∀ fault, outcome = .error fault → sorted = .error fault := by
  rcases Action.bind_eq_ok done with ⟨fault, sorting, rfl⟩ | ⟨answer, between, sorting, rest⟩
  · exact ⟨.error fault, sorting, nofun, fun raised equal => Except.error.inj equal ▸ rfl⟩
  · obtain ⟨rfl, rfl⟩ := Action.pure_eq_ok rest
    exact ⟨.ok answer, sorting, fun answered equal => (Except.ok.inj equal).symm, nofun⟩

theorem runSort_isRun (lawful : call.Lawful) (array : Value) (comparator : Option Value) :
    (runSort call array comparator).IsRun (array :: comparator.toList) Heap.Issued := by
  intro session leaked sound issued outcome heap' done
  obtain ⟨sorted, sorting, answered, -⟩ := runSort_eq_ok done
  obtain ⟨after, resumes, rfl, -⟩ := sortItems_isRun lawful array 1 comparator sound issued sorting
  refine ⟨after, resumes, rfl, fun answer equal => ?_⟩
  obtain rfl := answered answer equal
  exact resumes.reaches.issued sound (issued _ List.mem_cons_self)

/-- A sweep and the number of freed cells are two events. -/
theorem runSweep_isRun (budget : Int64) (given : List Value) :
    (runSweep budget : Action σ Value).IsRun given Heap.Issued := by
  intro session leaked sound issued outcome heap' done
  have sweeping : session.Moves (.sweep (.ofInt budget.toInt)) _ := .sweep
  obtain ⟨leakedSwept, swept⟩ := sweeping.reaches.sound sound
  unfold runSweep Action.step at done
  dsimp only at done
  revert done sweeping swept
  generalize session.heap.sweep (.ofInt budget.toInt) = result
  obtain ⟨stats, after⟩ := result
  intro done sweeping swept
  obtain ⟨rfl, rfl⟩ := Prod.mk.inj (Except.ok.inj done)
  have counting : Session.Moves { session with heap := after }
      (.request (.int (Int64.ofNat stats.freed))) _ := .request (by simp [Request.handles]) rfl
  refine ⟨_, ⟨sweeping.reaches.trans counting.reaches, rfl⟩, rfl, fun answer equal => ?_⟩
  obtain rfl := Except.ok.inj equal
  exact Heap.issued_create swept.heap _

/-- Runs obey the laws of core natives. -/
theorem nativeLaws_isRun :
    NativeLaws fun given (action : Action σ Value) => action.IsRun given Heap.Issued where
  mono := Action.IsRun.mono
  throw := fun _ fault => Action.isRun_throw fault
  demand := fun condition fault isRun => isRun.demand condition fault
  ask := fun _ _ isRun => Action.IsRun.ask isRun
  read := fun answered => by
    intro session leaked sound issued outcome heap' done
    obtain ⟨rfl, rfl⟩ := Prod.mk.inj (Except.ok.inj done)
    refine ⟨session, .refl session, rfl, fun answer equal => ?_⟩
    obtain rfl := Except.ok.inj equal
    exact answered sound.heap issued
  request := Action.isRun_grow
  sweep := fun given budget => runSweep_isRun budget given

/-- Every core native does what it does by events, and calls as its caller does. -/
theorem run_isRun (lawful : call.Lawful) (native : CoreNative) (arguments : List Value) :
    (native.run call arguments).IsRun arguments Heap.Issued :=
  nativeLaws_isRun.run lawful (runSort_isRun lawful) native arguments

end CoreNative

/-! ## Calls -/

/-- The auxiliary value of a call is an item of the program that is called. -/
theorem Heap.issued_target {heap : Heap σ} {held : Multiset Value} (sound : heap.Sound held)
    {callable auxiliary : Value} {native : Native σ}
    (found : heap.target? callable = some (native, auxiliary)) : heap.Issued auxiliary := by
  unfold Heap.target? at found
  split at found
  next =>
    obtain ⟨-, rfl⟩ := Prod.mk.inj (Option.some.inj found)
    exact Heap.issued_null
  next items payload =>
    obtain ⟨reached, -, equal⟩ := Option.map_eq_some_iff.mp found
    obtain ⟨-, rfl⟩ := Prod.mk.inj equal
    apply Heap.issued_getElem?_getD
    intro item member
    exact sound.issued_child (by rwa [Heap.children, payload] : item ∈ heap.children callable)
  next => contradiction

theorem Native.run_isRun {host : Host σ} (lawful : host.Lawful) {call : Caller σ}
    (calls : call.Lawful) (native : Native σ) (auxiliary : Value) (arguments : List Value) :
    (native.run host call auxiliary arguments).IsRun (auxiliary :: arguments) Heap.Issued := by
  have more : ∀ value ∈ arguments, value ∈ auxiliary :: arguments := fun _ => .tail _
  cases native with
  | plain function =>
      cases function with
      | core native => exact (CoreNative.run_isRun calls native arguments).mono more
      | host name => exact (lawful.plain calls name arguments).mono more
  | closure name => exact lawful.closure calls name auxiliary arguments

theorem Action.ask_bind {α β : Type} (question : Heap σ → α) (next : α → Action σ β)
    (heap : Heap σ) : (Action.ask question >>= next) heap = next (question heap) heap := rfl

/-- Where there is nothing to call, nothing happens. -/
theorem exec_of_target?_eq_none {heap : Heap σ} {callable : Value}
    (missing : heap.target? callable = none) (host : Host σ) (depth : Nat)
    (arguments : List Value) :
    exec host depth callable arguments heap = .ok (.ok .null, heap) := by
  cases depth <;> rw [exec, Action.ask_bind, missing] <;> rfl

/-- What is reached runs while the callable and the arguments are held. -/
theorem exec_of_target?_eq_some {heap : Heap σ} {callable auxiliary : Value} {native : Native σ}
    (found : heap.target? callable = some (native, auxiliary)) (host : Host σ) (depth : Nat)
    (arguments : List Value) :
    exec host (depth + 1) callable arguments heap =
      Action.holding (callable :: arguments)
        (native.run host (exec host depth) auxiliary arguments) heap := by
  rw [exec, Action.ask_bind, found]

/-- A call that comes back had nothing to call, or a call less deep was left for what it
reached. -/
theorem exec_eq_ok {host : Host σ} {depth : Nat} {callable : Value} {arguments : List Value}
    {heap heap' : Heap σ} {outcome : Except Fault Value}
    (done : exec host depth callable arguments heap = .ok (outcome, heap')) :
    outcome = .ok .null ∧ heap' = heap ∨
      ∃ native auxiliary inner, heap.target? callable = some (native, auxiliary) ∧
        depth = inner + 1 ∧
        Action.holding (callable :: arguments)
          (native.run host (exec host inner) auxiliary arguments) heap =
            .ok (outcome, heap') := by
  cases found : heap.target? callable with
  | none =>
      rw [exec_of_target?_eq_none found] at done
      obtain ⟨rfl, rfl⟩ := Prod.mk.inj (Except.ok.inj done)
      exact .inl ⟨rfl, rfl⟩
  | some target =>
      obtain ⟨native, auxiliary⟩ := target
      cases depth with
      | zero =>
          rw [exec, Action.ask_bind, found] at done
          contradiction
      | succ inner =>
          rw [exec_of_target?_eq_some found] at done
          exact .inr ⟨native, auxiliary, inner, rfl, rfl, done⟩

/-- A call of anything, at any depth, is a run that comes back to what was going on before. -/
theorem Host.Lawful.exec {host : Host σ} (lawful : host.Lawful) (depth : Nat) :
    (exec host depth).Lawful := by
  induction depth using Nat.strongRecOn with
  | ind depth inductionHypothesis =>
      intro callable arguments session leaked sound issued outcome heap' done
      rcases exec_eq_ok done with ⟨rfl, rfl⟩ | ⟨native, auxiliary, inner, found, rfl, ran⟩
      · exact ⟨session, .refl session, rfl, fun answer equal =>
          Except.ok.inj equal ▸ Heap.issued_null⟩
      · have running : (native.run host (CountedHeap.exec host inner) auxiliary
            arguments).IsRun (auxiliary :: callable :: arguments) Heap.Issued := by
          apply (native.run_isRun lawful (inductionHypothesis inner (Nat.lt_succ_self inner))
            auxiliary arguments).mono
          exact List.cons_subset_cons auxiliary (List.subset_cons_self callable arguments)
        apply running.holding (fun value member => .tail _ member) sound _ ran
        exact List.forall_mem_cons.mpr ⟨Heap.issued_target sound.heap found, issued⟩

/-- The same with the arguments in an array. -/
theorem Host.Lawful.execArray {host : Host σ} (lawful : host.Lawful) (depth : Nat)
    (callable arguments : Value) :
    (execArray host depth callable arguments).IsRun [callable, arguments] Heap.Issued := by
  intro session leaked sound issued outcome heap' done
  rw [CountedHeap.execArray, Action.ask_bind] at done
  apply lawful.exec depth callable _ sound _ done
  apply List.forall_mem_cons.mpr ⟨issued callable List.mem_cons_self, ?_⟩
  unfold Heap.argumentsOf
  split
  next items found => exact fun item member => Heap.issued_items sound.heap found member
  next =>
    split
    · exact List.forall_mem_nil _
    · exact List.forall_mem_singleton.mpr (issued arguments (by simp))

end CountedHeap
