import CountedHeap.Proofs.Requests
import CountedHeap.Heap.Root

/-!
Contract: a heap and the program that uses it, event by event.

A session remembers what the program holds: the references it retained and did not release,
the arguments of the calls that run, and the items of the sorts that run.  Calls are spread
out.  Between entering a call and leaving it come the events of what is called, so a state in
the middle of a call or of a comparison is a state of the session as any other.

Counters have no bound here.  In words a run is the same as long as no counter comes to the largest
word, which is a condition on the sessions of a run, and what holds of all runs holds of those.

Owns:
- sessions, events, and what each event does;
- the ledger of a session, and what every event does to the ledger and to the cells;
- the same for runs.
-/

namespace CountedHeap

variable {σ : Signature}

/-- What a program is in the middle of. -/
inductive Activity where
  /-- A scope, opened when the pool had `mark` cells. -/
  | scope (mark : Nat)
  /-- A call, which holds the callable and the arguments. -/
  | call (callable : Value) (arguments : List Value)
  /-- A sort, which has taken the items out of the sequence. -/
  | sort (sequence : Value) (items : List Value)

namespace Activity

/-- The references that an activity accounts for. -/
def held : Activity → Multiset Value
  | .scope _ => 0
  | .call callable arguments => ↑(callable :: arguments)
  | .sort _ items => ↑items

/-- The items that are to go back into a sequence. -/
def detached : Activity → List Value
  | .sort _ items => items
  | _ => []

end Activity

/-- The references that nested activities account for. -/
def heldBy : List Activity → Multiset Value
  | [] => 0
  | activity :: rest => activity.held + heldBy rest

/-- A heap in use.  The activities are nested, innermost first. -/
structure Session (σ : Signature) where
  heap : Heap σ
  /-- The references that the program retained and has not released. -/
  owners : Multiset Value := 0
  activities : List Activity := []

/-- What a program does with a heap next. -/
inductive Event (σ : Signature) where
  | request (request : Request σ)
  | retain (value : Value)
  | release (value : Value)
  | root (value : Value)
  | unroot (root : Root)
  | openScope
  | closeScope
  | sweep (budget : Budget)
  | enter (callable : Value) (arguments : List Value)
  | leave
  /-- A sort by a comparator begins. -/
  | detach (sequence : Value)
  /-- It ends; the items go back in some order. -/
  | restore (sequence : Value) (items : List Value)

namespace Event

/-- Whether an event belongs to no callable and no comparator. -/
def isPlain : Event σ → Bool
  | .enter _ _ | .leave | .detach _ | .restore _ _ => false
  | _ => true

/-- The container that an event may write, or the absent value. -/
def site (heap : Heap σ) : Event σ → Value
  | .request asked => heap.site asked
  | .detach sequence | .restore sequence _ => sequence
  | _ => .null

/-- An event that writes no bucket but through its table, and stores no key whose text can
change. -/
def Careful (heap : Heap σ) : Event σ → Prop
  | .request asked => heap.Careful asked
  | event => ¬heap.IsBucket (event.site heap)

end Event

namespace Session

/-- A program that has done nothing yet. -/
def start (config : Config) : Session σ :=
  { heap := .new config }

/-- The references that a session accounts for. -/
def held (session : Session σ) : Multiset Value :=
  session.owners + heldBy session.activities

/-- What an event does.  Handles are issued before they are used, and nothing is released that
was not retained. -/
inductive Moves : Session σ → Event σ → Session σ → Prop
  | request {session : Session σ} {request : Request σ} {heap : Heap σ}
      (issued : ∀ value ∈ request.handles, session.heap.Issued value)
      (done : session.heap.perform request = .ok heap) :
      Moves session (.request request) { session with heap }
  | retain {session : Session σ} {value : Value} (issued : session.heap.Issued value) :
      Moves session (.retain value)
        { session with heap := session.heap.retain value, owners := value ::ₘ session.owners }
  | release {session : Session σ} {value : Value} (owned : value ∈ session.owners) :
      Moves session (.release value)
        { session with
          heap := session.heap.release value, owners := session.owners.erase value }
  | root {session : Session σ} {value : Value} (issued : session.heap.Issued value) :
      Moves session (.root value)
        { session with
          heap := (session.heap.root value).2
          owners := (session.heap.root value).1.value ::ₘ session.owners }
  | unroot {session : Session σ} {root : Root} (owned : root.value ∈ session.owners) :
      Moves session (.unroot root)
        { session with
          heap := (session.heap.unroot root).2, owners := session.owners.erase root.value }
  | openScope {session : Session σ} :
      Moves session .openScope
        { session with
          activities := .scope session.heap.scratch.size :: session.activities }
  | closeScope {session : Session σ} {mark : Nat} {rest : List Activity}
      (innermost : session.activities = .scope mark :: rest) :
      Moves session .closeScope
        { session with heap := session.heap.unwind mark, activities := rest }
  | sweep {session : Session σ} {budget : Budget} :
      Moves session (.sweep budget) { session with heap := (session.heap.sweep budget).2 }
  | enter {session : Session σ} {callable : Value} {arguments : List Value}
      (issued : ∀ value ∈ callable :: arguments, session.heap.Issued value) :
      Moves session (.enter callable arguments)
        { session with
          heap := session.heap.retainAll (callable :: arguments)
          activities := .call callable arguments :: session.activities }
  | leave {session : Session σ} {callable : Value} {arguments : List Value}
      {rest : List Activity} (innermost : session.activities = .call callable arguments :: rest) :
      Moves session .leave
        { session with
          heap := session.heap.releaseAll (callable :: arguments), activities := rest }
  | detach {session : Session σ} {sequence : Value} {items : List Value}
      (found : session.heap.items? sequence = some items) :
      Moves session (.detach sequence)
        { session with
          heap := session.heap.setChildren sequence []
          activities := .sort sequence items :: session.activities }
  | restore {session : Session σ} {sequence : Value} {items items' : List Value}
      {rest : List Activity} (innermost : session.activities = .sort sequence items :: rest)
      (perm : items'.Perm items) :
      Moves session (.restore sequence items')
        { session with
          heap := session.heap.restoreItems sequence items', activities := rest }

/-- The sessions to which allowed events lead. -/
inductive Reaches (allowed : Session σ → Event σ → Prop) (first : Session σ) :
    Session σ → Prop
  | refl : Reaches allowed first first
  | step {session session' : Session σ} {event : Event σ}
      (before : Reaches allowed first session) (allows : allowed session event)
      (moves : session.Moves event session') : Reaches allowed first session'

/-- The invariant of sessions.  References of items whose sequence was reclaimed while they were
being sorted are held by nobody any more and still counted; `leaked` has them. -/
structure Sound (session : Session σ) (leaked : Multiset Value) : Prop where
  heap : session.heap.Sound (session.held + leaked)
  durable : ∀ activity ∈ session.activities, ∀ item ∈ activity.detached, item.isScratch = false

variable {session session' : Session σ} {event : Event σ} {leaked : Multiset Value}

/-- The retained references of values outside the pool. -/
def anchored (session : Session σ) : Set Value :=
  {value | value ∈ session.owners ∧ value.isScratch = false}

/-- What an event does: it is a step, or it gives up cells that nobody holds. -/
structure Outcome (event : Event σ) (session session' : Session σ)
    (leaked leaked' : Multiset Value) : Prop where
  sound : session'.Sound leaked'
  plain : event.isPlain = true → leaked' = leaked
  cells : Heap.Keeps (session.heap.storeCells (event.site session.heap)) session.heap
        session'.heap ∧
      (event.Careful session.heap → session.heap.TablesOrdered → session'.heap.TablesOrdered) ∧
      (event.Careful session.heap → session.heap.TablesTallied → session'.heap.TablesTallied) ∨
    Heap.Thins session'.anchored session.heap session'.heap

theorem Outcome.of_step {owners : Multiset Value} {activities : List Activity} {heap : Heap σ}
    {leaked' : Multiset Value}
    (step : Heap.Step (session.heap.storeCells (event.site session.heap))
      (event.Careful session.heap) session.heap heap (owners + heldBy activities + leaked'))
    (plain : event.isPlain = true → leaked' = leaked)
    (durable : ∀ activity ∈ activities, ∀ item ∈ activity.detached, item.isScratch = false) :
    Outcome event session { heap, owners, activities } leaked leaked' :=
  ⟨⟨step.sound, durable⟩, plain, .inl ⟨step.keeps, step.tables, step.tallies⟩⟩

theorem outcome_restore (sound : session.Sound leaked) {sequence : Value}
    {items items' : List Value} {rest : List Activity}
    (innermost : session.activities = .sort sequence items :: rest) (perm : items'.Perm items) :
    ∃ leaked', Outcome (.restore sequence items') session
      { session with heap := session.heap.restoreItems sequence items', activities := rest }
      leaked leaked' := by
  have accounts : session.held + leaked =
      session.owners + heldBy rest + leaked + ↑items' := by
    rw [held, innermost, heldBy, Multiset.coe_eq_coe.mpr perm]
    simp only [Activity.held]
    abel
  have entered := sound.heap
  have durable := sound.durable
  rw [innermost] at durable
  obtain ⟨headDurable, restDurable⟩ := List.forall_mem_cons.mp durable
  rw [accounts] at entered
  cases found : session.heap.items? sequence with
  | some strays =>
      exact ⟨leaked, .of_step ((Heap.Step.restoreItems entered found fun item member =>
        headDurable item (perm.subset member)).ofSequence id) (fun _ => rfl) restDurable⟩
  | none =>
      -- The sequence is gone.  Its items stay in the ledger, where nobody releases them.
      refine ⟨leaked + ↑items', .of_step ?_ (by simp [Event.isPlain]) restDurable⟩
      rw [Heap.restoreItems, found, ← add_assoc]
      exact .refl _ _ entered

theorem outcome_closeScope (sound : session.Sound leaked) {mark : Nat} {rest : List Activity}
    (innermost : session.activities = .scope mark :: rest) :
    Outcome .closeScope session
      { session with heap := session.heap.unwind mark, activities := rest } leaked leaked := by
  have accounts : session.held = session.owners + heldBy rest := by
    rw [held, innermost, heldBy, Activity.held, zero_add]
  obtain ⟨kept, thins⟩ := Heap.Thins.unwind sound.heap mark
  refine ⟨⟨?_, fun activity member => sound.durable activity ?_⟩, fun _ => rfl,
    .inr (thins.mono fun anchored => Heap.mem_belowMark_of_not_isScratch anchored.2 mark)⟩
  · rwa [accounts] at kept
  · exact innermost ▸ .tail _ member

theorem outcome_leave (sound : session.Sound leaked) {callable : Value} {arguments : List Value}
    {rest : List Activity} (innermost : session.activities = .call callable arguments :: rest) :
    Outcome .leave session
      { session with
        heap := session.heap.releaseAll (callable :: arguments), activities := rest }
      leaked leaked := by
  have accounts : session.held + leaked =
      session.owners + heldBy rest + leaked + ↑(callable :: arguments) := by
    rw [held, innermost, heldBy, Activity.held]
    abel
  have entered := sound.heap
  rw [accounts] at entered
  exact .of_step (Heap.Step.releaseAll entered).weaken (fun _ => rfl)
    fun activity member => sound.durable activity (innermost ▸ .tail _ member)

/-- What one event does to the ledger and to the cells. -/
theorem Moves.outcome (moves : session.Moves event session') (sound : session.Sound leaked) :
    ∃ leaked', Outcome event session session' leaked leaked' := by
  cases moves with
  | request issued done =>
      exact ⟨leaked, .of_step (Heap.Step.perform sound.heap issued done) (fun _ => rfl)
        sound.durable⟩
  | retain issued | root issued =>
      have retaining := Heap.Step.retain sound.heap issued
      rw [held, ← Multiset.cons_add, ← Multiset.cons_add] at retaining
      exact ⟨leaked, .of_step retaining.weaken (fun _ => rfl) sound.durable⟩
  | release owned | unroot owned =>
      have entered := sound.heap
      rw [held, ← Multiset.cons_erase owned, Multiset.cons_add, Multiset.cons_add] at entered
      exact ⟨leaked, .of_step (Heap.Step.release entered).weaken (fun _ => rfl) sound.durable⟩
  | openScope =>
      have entered := sound.heap
      rw [held, ← zero_add (heldBy session.activities)] at entered
      exact ⟨leaked, .of_step (.refl _ _ entered) (fun _ => rfl)
        (List.forall_mem_cons.mpr ⟨by simp [Activity.detached], sound.durable⟩)⟩
  | closeScope innermost => exact ⟨leaked, outcome_closeScope sound innermost⟩
  | sweep =>
      obtain ⟨kept, thins⟩ := Heap.Thins.sweep sound.heap _
      refine ⟨leaked, ⟨kept, sound.durable⟩, fun _ => rfl, .inr (thins.mono fun anchored => ?_)⟩
      exact .inl (Multiset.mem_add.mpr (.inl (Multiset.mem_add.mpr (.inl anchored.1))))
  | @enter callable arguments issued =>
      have retaining := Heap.Step.retainAll sound.heap issued
      have accounts : session.held + leaked + ↑(callable :: arguments) =
          session.owners + heldBy (.call callable arguments :: session.activities) + leaked := by
        rw [held, heldBy, Activity.held]
        abel
      rw [accounts] at retaining
      exact ⟨leaked, .of_step retaining.weaken (fun _ => rfl)
        (List.forall_mem_cons.mpr ⟨by simp [Activity.detached], sound.durable⟩)⟩
  | leave innermost => exact ⟨leaked, outcome_leave sound innermost⟩
  | @detach sequence items found =>
      have detaching := (Heap.Step.detach sound.heap found).ofSequence id
      have accounts : session.held + leaked + ↑items =
          session.owners + heldBy (.sort sequence items :: session.activities) + leaked := by
        rw [held, heldBy, Activity.held]
        abel
      rw [accounts] at detaching
      exact ⟨leaked, .of_step detaching (fun _ => rfl) (List.forall_mem_cons.mpr
        ⟨fun item member => Heap.durable_items sound.heap found member, sound.durable⟩)⟩
  | restore innermost perm => exact outcome_restore sound innermost perm

/-! ## Runs -/

theorem sound_start (config : Config) : (start config : Session σ).Sound 0 where
  heap := .new config
  durable := by simp [start]

/-- Whatever a program does, the counts agree with the ledger. -/
theorem Reaches.sound {allowed : Session σ → Event σ → Prop} {first : Session σ}
    (sound : first.Sound leaked) (reaches : Reaches allowed first session) :
    ∃ leaked', session.Sound leaked' := by
  induction reaches with
  | refl => exact ⟨leaked, sound⟩
  | step _ _ moves inductionHypothesis =>
      obtain ⟨between, soundBetween⟩ := inductionHypothesis
      obtain ⟨leaked', outcome⟩ := moves.outcome soundBetween
      exact ⟨leaked', outcome.sound⟩

/-- Where nothing is called, only scopes are open. -/
theorem Moves.heldBy_eq_zero (moves : session.Moves event session')
    (plain : event.isPlain = true) (scopes : heldBy session.activities = 0) :
    heldBy session'.activities = 0 := by
  cases moves with
  | request | retain | release | root | unroot | sweep => exact scopes
  | openScope => rwa [heldBy, Activity.held, zero_add]
  | closeScope innermost => rwa [innermost, heldBy, Activity.held, zero_add] at scopes
  | enter | leave | detach | restore => contradiction

/-- Where nothing is called, the program's own references are all there are. -/
theorem Reaches.sound_owners {config : Config}
    (reaches : Reaches (fun _ event => event.isPlain = true) (.start config) session) :
    session.heap.Sound session.owners := by
  have all : session.Sound 0 ∧ heldBy session.activities = 0 := by
    induction reaches with
    | refl => exact ⟨sound_start config, rfl⟩
    | step _ plain moves inductionHypothesis =>
        obtain ⟨between, scopes⟩ := inductionHypothesis
        obtain ⟨leaked, outcome⟩ := moves.outcome between
        exact ⟨outcome.plain plain ▸ outcome.sound, moves.heldBy_eq_zero plain scopes⟩
  have entered := all.1.heap
  rwa [held, all.2, add_zero, add_zero] at entered

end Session

end CountedHeap
