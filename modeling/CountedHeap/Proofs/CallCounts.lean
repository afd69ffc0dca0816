import CountedHeap.Proofs.Framing
import CountedHeap.Proofs.Scripts

/-!
Contract: a call gives back exactly what it took.

The callable and the arguments are retained once for each position while the native runs.  If
what the native does leaves the counts exact, so does the call, whichever way it ends.  The core
natives do, whatever they call in turn.

Owns:
- actions that keep counts exact, and hosts all of whose natives do;
- sorts by a comparator, core natives and calls as such actions;
- what a call retains is live as long as it runs, and what a sort takes out it puts back.
-/

namespace CountedHeap

variable {σ : Signature} {heap heap' heap'' : Heap σ} {held retained retained' : Multiset Value}
  {given given' : List Value}

/-! ## Actions -/

/-- An action that keeps counts exact.  Where the handles that it is given are issued, and
`retained` is among the references that are held, it leaves these references as they are on both
ways out, comes to an end of all it began, and answers an issued handle. -/
def Action.KeepsCounts (given : List Value) (retained : Multiset Value)
    (action : Action σ Value) : Prop :=
  ∀ ⦃heap : Heap σ⦄ ⦃held : Multiset Value⦄, heap.Sound held → retained ≤ held →
    (∀ value ∈ given, heap.Issued value) →
      ∀ ⦃outcome : Except Fault Value⦄ ⦃heap' : Heap σ⦄, action heap = .ok (outcome, heap') →
        heap'.Sound held ∧ heap.Becomes heap' ∧
          ∀ answer, outcome = .ok answer → heap'.Issued answer

/-- A caller all of whose calls keep counts exact, whatever is held. -/
def Caller.KeepsCounts (call : Caller σ) : Prop :=
  ∀ callable arguments, (call callable arguments).KeepsCounts (callable :: arguments) 0

/-- A host whose natives keep counts exact if their calls do and their arguments are held. -/
structure Host.KeepsCounts (host : Host σ) : Prop where
  plain : ∀ {call : Caller σ}, call.KeepsCounts → ∀ name arguments,
    (host.plain name call arguments).KeepsCounts arguments ↑arguments
  closure : ∀ {call : Caller σ}, call.KeepsCounts → ∀ name auxiliary arguments,
    (host.closure name call auxiliary arguments).KeepsCounts (auxiliary :: arguments) ↑arguments

namespace Action

variable {action : Action σ Value}

theorem KeepsCounts.mono (keeps : action.KeepsCounts given retained)
    (more : ∀ value ∈ given, value ∈ given') (le : retained ≤ retained') :
    action.KeepsCounts given' retained' := by
  intro heap held sound holds issued
  exact keeps sound (le.trans holds) fun value member => issued value (more value member)

theorem keepsCounts_throw (fault : Fault) :
    (throw fault : Action σ Value).KeepsCounts given retained := by
  intro heap held sound holds issued outcome heap' done
  obtain ⟨rfl, rfl⟩ := Prod.mk.inj (Except.ok.inj done)
  exact ⟨sound, .refl heap, nofun⟩

theorem KeepsCounts.demand (keeps : action.KeepsCounts given retained)
    (condition : Heap σ → Bool) (fault : Fault) :
    (Action.demand condition fault >>= fun _ => action).KeepsCounts given retained := by
  intro heap held sound holds issued outcome heap' done
  rcases demand_eq_ok done with ⟨⟨raised, rfl⟩, rfl⟩ | passed
  · exact ⟨sound, .refl _, nofun⟩
  · exact keeps sound holds issued passed

/-- An answer that is read off the heap. -/
theorem keepsCounts_ask {question : Heap σ → Value}
    (answered : ∀ {heap : Heap σ} {held : Multiset Value}, heap.Sound held →
      (∀ value ∈ given, heap.Issued value) → heap.Issued (question heap)) :
    (Action.ask question).KeepsCounts given retained := by
  intro heap held sound holds issued outcome heap' done
  obtain ⟨rfl, rfl⟩ := Prod.mk.inj (Except.ok.inj done)
  refine ⟨sound, .refl heap, fun answer equal => ?_⟩
  obtain rfl := Except.ok.inj equal
  exact answered sound issued

/-- An operation that is one request. -/
theorem keepsCounts_grow {operation : Heap σ → Except Exhausted (Value × Heap σ)}
    (request : Heap σ → Request σ)
    (same : ∀ heap, heap.perform (request heap) = Heap.settle (operation heap))
    (handles : ∀ heap, ∀ value ∈ (request heap).handles, value ∈ given)
    (answered : ∀ {heap heap' : Heap σ} {held : Multiset Value} {answer : Value},
      heap.Sound held → (∀ value ∈ given, heap.Issued value) →
        operation heap = .ok (answer, heap') → heap'.Issued answer) :
    (Action.grow operation).KeepsCounts given retained := by
  intro heap held sound holds issued outcome heap' done
  obtain ⟨⟨answer, after⟩, ran, last⟩ := CountedHeap.bind_eq_ok.mp done
  obtain ⟨rfl, rfl⟩ := Prod.mk.inj (Except.ok.inj last)
  have performed : heap.perform (request heap) = .ok after := by
    rw [same, ran]
    rfl
  have requested : ∀ value ∈ (request heap).handles, heap.Issued value :=
    fun value member => issued value (handles _ value member)
  have moves : Session.Moves { heap } (.request (request heap)) { heap := after } :=
    .request requested performed
  refine ⟨(Heap.Step.perform sound requested performed).sound, moves.reaches,
    fun value equal => ?_⟩
  exact Except.ok.inj equal ▸ answered sound issued ran

/-- Whatever the values are held for, they are retained before and released after. -/
theorem KeepsCounts.holding {callable : Value} {arguments : List Value}
    (keeps : action.KeepsCounts given retained) (le : retained ≤ ↑(callable :: arguments))
    (covered : ∀ value ∈ callable :: arguments, value ∈ given) :
    (Action.holding (callable :: arguments) action).KeepsCounts given 0 := by
  intro heap held sound holds issued outcome heap' done
  obtain ⟨after, ran, rfl⟩ := holding_eq_ok.mp done
  have taken : ∀ value ∈ callable :: arguments, heap.Issued value :=
    fun value member => issued value (covered value member)
  have entering := Heap.Step.retainAll sound taken
  obtain ⟨soundAfter, becomes, answered⟩ := keeps entering.sound
    (le.trans (Multiset.le_add_left _ _))
    (fun value member => entering.keeps.issued (issued value member)) ran
  have leaving := Heap.Step.releaseAll soundAfter
  refine ⟨leaving.sound, ?_, fun answer equal => leaving.keeps.issued (answered answer equal)⟩
  have enters : Session.Moves { heap } (.enter callable arguments) _ := .enter taken
  have leaves : Session.Moves
      { heap := after, activities := [.call callable arguments] } .leave _ := .leave rfl
  exact (enters.reaches.trans (becomes.framed 0 _)).trans leaves.reaches

end Action

/-! ## Sorts -/

/-- One heap comes from another with every count exact, whatever is held. -/
def Heap.Balances (given : List Value) (heap heap' : Heap σ) : Prop :=
  ∀ ⦃held : Multiset Value⦄, heap.Sound held → (∀ value ∈ given, heap.Issued value) →
    heap'.Sound held ∧ heap.Becomes heap'

theorem Heap.Balances.refl (given : List Value) (heap : Heap σ) : heap.Balances given heap :=
  fun _ sound _ => ⟨sound, .refl heap⟩

theorem Heap.Balances.trans (first : heap.Balances given heap')
    (second : heap'.Balances given heap'') : heap.Balances given heap'' := by
  intro held sound issued
  obtain ⟨between, before⟩ := first sound issued
  obtain ⟨last, after⟩ := second between
    fun value member => before.issued sound (issued value member)
  exact ⟨last, before.trans after⟩

/-- A comparison is one call. -/
theorem precedesBy_balances {call : Caller σ} (keeps : call.KeepsCounts)
    (comparator left right : Value) :
    (precedesBy call comparator left right).Keeps
      (Heap.Balances [comparator, left, right]) := by
  intro heap heap' outcome done held sound issued
  rcases Action.bind_eq_ok done with ⟨fault, called, -⟩ | ⟨answer, between, called, rest⟩
  · obtain ⟨soundAfter, becomes, -⟩ :=
      keeps comparator [left, right] sound (Multiset.zero_le _) issued called
    exact ⟨soundAfter, becomes⟩
  · obtain ⟨-, rfl⟩ := Prod.mk.inj (Except.ok.inj rest)
    obtain ⟨soundAfter, becomes, -⟩ :=
      keeps comparator [left, right] sound (Multiset.zero_le _) issued called
    exact ⟨soundAfter, becomes⟩

/-- The items of a sequence are there, in some order, and after a fault in the order they had. -/
def Heap.Restores {α : Type} (sequence : Value) (heap : Heap σ) (outcome : Except Fault α)
    (heap' : Heap σ) : Prop :=
  ∀ items, heap.items? sequence = some items →
    ∃ items', heap'.items? sequence = some items' ∧ items'.Perm items ∧
      ∀ fault, outcome = .error fault → items' = items

theorem Heap.Restores.refl {α : Type} (sequence : Value) (heap : Heap σ)
    (outcome : Except Fault α) : heap.Restores sequence outcome heap :=
  fun items found => ⟨items, found, .refl items, fun _ _ => rfl⟩

/-- A sequence that is held is there when the comparator has been called for the last time, and
takes its items back. -/
theorem sortItems_keepsCounts {call : Caller σ} (keeps : call.KeepsCounts) (sound : heap.Sound held)
    {sequence : Value} (member : sequence ∈ held) {step : Nat} {comparator : Option Value}
    (issued : ∀ function ∈ comparator, heap.Issued function) {outcome : Except Fault Unit}
    (done : sortItems call sequence step comparator heap = .ok (outcome, heap')) :
    heap'.Sound held ∧ heap.Becomes heap' ∧ heap.Restores sequence outcome heap' := by
  let given := heap.compared sequence comparator
  have asks : ∀ function ∈ comparator, ∀ left right, left ∈ given → right ∈ given →
      (precedesBy call function left right).Keeps (Heap.Balances given) := by
    intro function isComparator left right leftGiven rightGiven before after outcome asked held
      sound issued
    apply precedesBy_balances keeps function left right before after outcome asked sound
    intro value member
    exact issued value (Heap.comparison_subset_compared isComparator leftGiven rightGiven member)
  rcases sortItems_eq_ok (Heap.Balances given) (· ∈ given) (Heap.Balances.refl given)
    (fun _ _ _ => Heap.Balances.trans) Heap.null_mem_compared
    (fun _ => Heap.mem_compared_of_child) asks done with
    ⟨-, rfl⟩ | ⟨items, items', after, found, perm, restored, asking, rfl⟩
  · exact ⟨sound, .refl _, .refl sequence _ outcome⟩
  · have detaching := Heap.Step.detach sound found
    have issuedBefore : ∀ value ∈ given, heap.Issued value := Heap.issued_compared sound issued
    have issuedInside : ∀ value ∈ given, (heap.setChildren sequence []).Issued value :=
      fun value member => detaching.keeps.issued (issuedBefore value member)
    obtain ⟨soundAfter, becomes⟩ := asking detaching.sound issuedInside
    have live : (heap.setChildren sequence []).isLive sequence = true :=
      Heap.isLive_of_items? (Heap.items?_setChildren found)
    obtain ⟨-, kind⟩ := detaching.sound.stays becomes
      (Multiset.mem_add.mpr (.inl member)) live
    obtain ⟨strays, remaining⟩ : ∃ strays, after.items? sequence = some strays := by
      apply Heap.exists_items?_of_isSequence
      rw [kind]
      exact Heap.isSequence_of_items? (Heap.items?_setChildren found)
    rw [← Multiset.coe_eq_coe.mpr perm] at soundAfter
    have restoring := Heap.Step.restoreItems soundAfter remaining fun item isItem =>
      Heap.durable_items sound found (perm.subset isItem)
    have detaches : Session.Moves { heap } (.detach sequence) _ := .detach found
    have restores : Session.Moves { heap := after, activities := [.sort sequence items] }
        (.restore sequence items') _ := .restore rfl perm
    refine ⟨restoring.sound,
      (detaches.reaches.trans (becomes.framed 0 _)).trans restores.reaches, ?_⟩
    intro listed foundListed
    obtain rfl := Option.some.inj (found.symm.trans foundListed)
    exact ⟨items', Heap.items?_restoreItems remaining items', perm, restored⟩

/-! ## Core natives -/

namespace CoreNative

variable {call : Caller σ}

theorem runSort_keepsCounts (keeps : call.KeepsCounts) (array : Value)
    (comparator : Option Value) :
    (runSort call array comparator).KeepsCounts (array :: comparator.toList) {array} := by
  intro heap held sound holds issued outcome heap' done
  have member : array ∈ held := Multiset.singleton_le.mp holds
  have callable : ∀ function ∈ comparator, heap.Issued function :=
    fun function isComparator => issued function (.tail _ (Option.mem_toList.mpr isComparator))
  obtain ⟨sorted, sorting, answered, -⟩ := runSort_eq_ok done
  obtain ⟨soundAfter, becomes, -⟩ := sortItems_keepsCounts keeps sound member callable sorting
  refine ⟨soundAfter, becomes, fun answer equal => ?_⟩
  obtain rfl := answered answer equal
  exact becomes.issued sound (issued _ List.mem_cons_self)

/-- The array that the sort native is given has its items afterwards. -/
theorem sort_restores (keeps : call.KeepsCounts) (sound : heap.Sound held) {array : Value}
    {others : List Value} (member : array ∈ held) (issued : ∀ value ∈ others, heap.Issued value)
    {outcome : Except Fault Value}
    (done : CoreNative.sort.run call (array :: others) heap = .ok (outcome, heap')) :
    heap.Restores array outcome heap' := by
  have sorts : ∀ {comparator : Option Value}, (∀ function ∈ comparator, heap.Issued function) →
      runSort call array comparator heap = .ok (outcome, heap') →
        heap.Restores array outcome heap' := by
    intro comparator callable ran items found
    obtain ⟨sorted, sorting, -, raised⟩ := runSort_eq_ok ran
    obtain ⟨-, -, restores⟩ := sortItems_keepsCounts keeps sound member callable sorting
    obtain ⟨items', found', perm, restored⟩ := restores items found
    exact ⟨items', found', perm, fun fault equal => restored fault (raised fault equal)⟩
  rcases others with - | ⟨comparator, - | ⟨extra, more⟩⟩
  · rcases Action.demand_eq_ok done with ⟨-, rfl⟩ | ran
    · exact .refl array heap' outcome
    · exact sorts (by simp) ran
  · rcases Action.demand_eq_ok done with ⟨-, rfl⟩ | passed
    · exact .refl array heap' outcome
    · rcases Action.demand_eq_ok passed with ⟨-, rfl⟩ | ran
      · exact .refl array heap' outcome
      · exact sorts (by simpa using issued) ran
  · obtain ⟨-, rfl⟩ := Prod.mk.inj (Except.ok.inj done)
    exact .refl array heap outcome

/-- A sweep and the number of freed cells are two events. -/
theorem runSweep_keepsCounts (budget : Int64) :
    (runSweep budget : Action σ Value).KeepsCounts given retained := by
  intro heap held sound holds issued outcome heap' done
  have swept := (Heap.Thins.sweep sound (.ofInt budget.toInt)).1
  have sweeping : Session.Moves { heap } (.sweep (.ofInt budget.toInt)) _ := .sweep
  unfold runSweep Action.step at done
  dsimp only at done
  revert done sweeping swept
  generalize heap.sweep (.ofInt budget.toInt) = result
  obtain ⟨stats, after⟩ := result
  intro done swept sweeping
  obtain ⟨rfl, rfl⟩ := Prod.mk.inj (Except.ok.inj done)
  have counting : Session.Moves { heap := after }
      (.request (.int (Int64.ofNat stats.freed))) _ := .request (by simp [Request.handles]) rfl
  have counted : (after.int (Int64.ofNat stats.freed)).2.Sound held :=
    (Heap.Step.createSingle swept rfl (by simp)).sound
  refine ⟨counted, sweeping.reaches.trans counting.reaches, fun answer equal => ?_⟩
  obtain rfl := Except.ok.inj equal
  exact Heap.issued_create swept _

/-- Exact counts obey the laws of core natives, where the given handles are held. -/
theorem nativeLaws_keepsCounts : NativeLaws fun given (action : Action σ Value) =>
    ∀ retained : Multiset Value, (∀ value ∈ given, value ∈ retained) →
      action.KeepsCounts given retained where
  mono := fun keeps more retained among =>
    (keeps retained fun value member => among value (more value member)).mono more le_rfl
  throw := fun _ fault _ _ => Action.keepsCounts_throw fault
  demand := fun condition fault keeps retained among =>
    (keeps retained among).demand condition fault
  ask := fun question _ keeps retained among _ _ sound holds issued _ _ done =>
    keeps (question _) retained among sound holds issued done
  read := fun answered _ _ => Action.keepsCounts_ask answered
  request := fun request same handles answered _ _ =>
    Action.keepsCounts_grow request same handles answered
  sweep := fun _ budget _ _ => runSweep_keepsCounts budget

/-- A core native that is given what is held keeps counts exact if its calls do. -/
theorem run_keepsCounts (keeps : call.KeepsCounts) (native : CoreNative)
    (arguments : List Value) :
    (native.run call arguments).KeepsCounts arguments ↑arguments := by
  apply nativeLaws_keepsCounts.run _ _ native arguments _ fun value => id
  · exact fun callable arguments retained _ =>
      (keeps callable arguments).mono (fun _ => id) (Multiset.zero_le retained)
  · exact fun array comparator retained among =>
      (runSort_keepsCounts keeps array comparator).mono (fun _ => id)
        (Multiset.singleton_le.mpr (among array List.mem_cons_self))

end CoreNative

/-! ## Calls -/

theorem Native.run_keepsCounts {host : Host σ} (hosted : host.KeepsCounts) {call : Caller σ}
    (keeps : call.KeepsCounts) (native : Native σ) (auxiliary : Value) (arguments : List Value) :
    (native.run host call auxiliary arguments).KeepsCounts (auxiliary :: arguments)
      ↑arguments := by
  have more : ∀ value ∈ arguments, value ∈ auxiliary :: arguments := fun _ => .tail _
  cases native with
  | plain function =>
      cases function with
      | core native => exact (CoreNative.run_keepsCounts keeps native arguments).mono more le_rfl
      | host name => exact (hosted.plain keeps name arguments).mono more le_rfl
  | closure name => exact hosted.closure keeps name auxiliary arguments

/-- A call of anything, at any depth, keeps counts exact. -/
theorem Host.KeepsCounts.exec {host : Host σ} (hosted : host.KeepsCounts) (depth : Nat) :
    (exec host depth).KeepsCounts := by
  induction depth using Nat.strongRecOn with
  | ind depth inductionHypothesis =>
      intro callable arguments heap held sound holds issued outcome heap' done
      rcases exec_eq_ok done with ⟨rfl, rfl⟩ | ⟨native, auxiliary, inner, found, rfl, ran⟩
      · exact ⟨sound, .refl _, fun answer equal => Except.ok.inj equal ▸ Heap.issued_null⟩
      · have running : (native.run host (CountedHeap.exec host inner) auxiliary
            arguments).KeepsCounts (auxiliary :: callable :: arguments) ↑arguments := by
          apply (native.run_keepsCounts hosted (inductionHypothesis inner (Nat.lt_succ_self inner))
            auxiliary arguments).mono _ le_rfl
          exact List.cons_subset_cons auxiliary (List.subset_cons_self callable arguments)
        apply running.holding (Multiset.le_cons_self _ _) (fun value member => .tail _ member)
          sound holds _ ran
        exact List.forall_mem_cons.mpr ⟨Heap.issued_target sound found, issued⟩

namespace Heap

/-- What a call holds is there whatever is done meanwhile. -/
theorem Sound.stays_retainAll (sound : heap.Sound held) {values : List Value}
    {inside : Session σ}
    (reaches : Session.Reaches (fun _ _ => True) { heap := heap.retainAll values } inside)
    {value : Value} (member : value ∈ values) (live : heap.isLive value = true) :
    inside.heap.isLive value = true := by
  have issued : ∀ value ∈ values.filter heap.isLive, heap.Issued value :=
    fun value kept => sound.toConsistent.issued (List.of_mem_filter kept)
  have entered := (Step.retainAll sound issued).sound
  rw [retainAll_filter_isLive] at entered
  have isHeld : value ∈ held + ↑(values.filter heap.isLive) :=
    Multiset.mem_add.mpr (.inr (Multiset.mem_coe.mpr (List.mem_filter.mpr ⟨member, live⟩)))
  exact (entered.stays reaches isHeld (by rwa [isLive_retainAll])).1

/-- What a call of `callable` with `arguments` is to the counts of the heap it begins in. -/
structure BalancedCall (host : Host σ) (depth : Nat) (heap : Heap σ) (callable : Value)
    (arguments : List Value) (result : Except Exhausted (Except Fault Value × Heap σ)) :
    Prop where
  /-- Where there is nothing to call, nothing happens. -/
  idle : heap.target? callable = none → result = .ok (.ok .null, heap)
  /-- What is reached runs after the callable and the arguments are retained, one time for each
  position.  On both ways out they are released, one time for each position. -/
  bracket : ∀ native auxiliary, heap.target? callable = some (native, auxiliary) →
    ∀ outcome heap', result = .ok (outcome, heap') ↔ ∃ after,
      native.run host (exec host depth) auxiliary arguments
        (heap.retainAll (callable :: arguments)) = .ok (outcome, after) ∧
      heap' = after.releaseAll (callable :: arguments)
  /-- If what is reached keeps counts exact while it has one owner more for each position, then
  so does the call. -/
  counts : ∀ native auxiliary, heap.target? callable = some (native, auxiliary) →
    ∀ held held', heap.Exact held →
      ((heap.retainAll (callable :: arguments)).Exact (held + ↑(callable :: arguments)) →
        ∀ outcome after, native.run host (exec host depth) auxiliary arguments
          (heap.retainAll (callable :: arguments)) = .ok (outcome, after) →
            after.Exact (held' + ↑(callable :: arguments))) →
      ∀ outcome heap', result = .ok (outcome, heap') → heap'.Exact held'
  /-- Whatever is done before the call comes back, the callable and the arguments are there, and
  no sweep takes them. -/
  resolves : ∀ held, heap.Sound held → ∀ inside : Session σ,
    Session.Reaches (fun _ _ => True) { heap := heap.retainAll (callable :: arguments) } inside →
      ∀ value ∈ callable :: arguments, heap.isLive value = true →
        inside.heap.isLive value = true ∧
          ∀ budget, (inside.heap.sweep budget).2.isLive value = true
  /-- Natives that call natives in turn leave the counts exact, at any depth and whatever
  fails. -/
  sound : host.KeepsCounts → ∀ held, heap.Sound held →
    (∀ value ∈ callable :: arguments, heap.Issued value) →
      ∀ outcome heap', result = .ok (outcome, heap') → heap'.Sound held
  /-- The array that the sort native sorts has its items. -/
  restores : host.KeepsCounts → ∀ auxiliary,
    heap.target? callable = some (.plain (.core .sort), auxiliary) →
      ∀ held, heap.Sound held → (∀ value ∈ callable :: arguments, heap.Issued value) →
        ∀ array others, arguments = array :: others →
          ∀ outcome heap', result = .ok (outcome, heap') → heap.Restores array outcome heap'

theorem balancedCall_exec (host : Host σ) (depth : Nat) (heap : Heap σ) (callable : Value)
    (arguments : List Value) :
    heap.BalancedCall host depth callable arguments
      (exec host (depth + 1) callable arguments heap) where
  idle := fun missing => exec_of_target?_eq_none missing host _ arguments
  bracket := by
    intro native auxiliary found outcome heap'
    rw [exec_of_target?_eq_some found]
    exact Action.holding_eq_ok
  counts := by
    intro native auxiliary found held held' exact_ keeps outcome heap' done
    rw [exec_of_target?_eq_some found] at done
    obtain ⟨after, ran, rfl⟩ := Action.holding_eq_ok.mp done
    exact (keeps (exact_.retainAll _) outcome after ran).releaseAll
  resolves := by
    intro held sound inside reaches value member live
    have swept : ∀ budget, inside.Moves (.sweep budget) _ := fun budget => .sweep
    exact ⟨sound.stays_retainAll reaches member live, fun budget =>
      sound.stays_retainAll (reaches.trans (swept budget).reaches) member live⟩
  sound := by
    intro hosted held sound issued outcome heap' done
    exact (hosted.exec (depth + 1) callable arguments sound (Multiset.zero_le _) issued done).1
  restores := by
    rintro hosted auxiliary found held sound issued array others rfl outcome heap' done
    rw [exec_of_target?_eq_some found] at done
    obtain ⟨after, ran, rfl⟩ := Action.holding_eq_ok.mp done
    have entering := Step.retainAll sound issued
    have restores := CoreNative.sort_restores (hosted.exec depth) entering.sound (by simp)
      (fun value member => entering.keeps.issued (issued value (by simp [member]))) ran
    intro items found
    obtain ⟨items', found', perm, restored⟩ := restores items (by rwa [items?_retainAll])
    exact ⟨items', by rwa [items?_releaseAll], perm, restored⟩

/-- Calls are balanced, with the arguments in a list or in an array. -/
theorem calls_balance (host : Host σ) (depth : Nat) (heap : Heap σ) (callable : Value) :
    (∀ arguments, heap.BalancedCall host depth callable arguments
      (exec host (depth + 1) callable arguments heap)) ∧
    ∀ list, heap.BalancedCall host depth callable (heap.argumentsOf list)
      (execArray host (depth + 1) callable list heap) :=
  ⟨balancedCall_exec host depth heap callable,
    fun list => balancedCall_exec host depth heap callable (heap.argumentsOf list)⟩

/-! ## A comparison that fails, and a handle that was not issued -/

/-- One plain callable and one closure. -/
def relaying : Signature :=
  ⟨Unit, Unit⟩

/-- The plain callable always fails.  The closure calls its auxiliary value. -/
def relay : Host relaying where
  plain := fun _ _ _ => throw (.native "boom")
  closure := fun _ call auxiliary arguments => call auxiliary arguments

theorem relay_keepsCounts : relay.KeepsCounts where
  plain := fun _ _ _ => Action.keepsCounts_throw _
  closure := fun keeps _ auxiliary arguments =>
    (keeps auxiliary arguments).mono (fun _ => id) (Multiset.zero_le _)

theorem exists_of_outcome {α : Type} {result : Except Exhausted (Except Fault α × Heap σ)}
    {outcome : Except Fault α} (ran : result.toOption.map Prod.fst = some outcome) :
    ∃ heap', result = .ok (outcome, heap') := by
  cases result with
  | error reason => contradiction
  | ok answer =>
      obtain rfl := Option.some.inj ran
      exact ⟨answer.2, rfl⟩

/-- An array of two numbers, the sort native, a closure that calls it, and a native that fails. -/
def sortingScript : List (Event relaying) :=
  [.request (.int 2), .request (.int 1), .request (.arrayOf [.cell ⟨0, 0⟩, .cell ⟨1, 0⟩]),
    .request (.native (.core .sort)), .request (.closure () (.cell ⟨3, 0⟩)),
    .request (.native (.host ()))]

theorem isSome_sorting :
    (Session.run? (fun _ event => event.isPlain = true) (.start {}) sortingScript).isSome =
      true := by
  decide +kernel

/-- The heap with the array and the natives. -/
def unsorted : Heap relaying :=
  ((Session.run? (fun _ event => event.isPlain = true) (.start {}) sortingScript).get
    isSome_sorting).heap

theorem sound_unsorted : unsorted.Sound 0 := by
  have reaches := Session.reaches_of_run? .refl (Option.some_get isSome_sorting).symm
  have nothing : ((Session.run? _ (.start {}) sortingScript).get isSome_sorting).owners = 0 := by
    decide +kernel
  have sound := reaches.sound_owners
  rwa [nothing] at sound

/-- The comparison fails, with it the sort, and with it the closure that calls the sort.  The array,
which nobody else holds, would survive a sweep during the sort. -/
theorem failed_comparison_is_balanced :
    (∃ heap', exec relay 3 (.cell ⟨5, 0⟩) [.cell ⟨2, 0⟩, .cell ⟨6, 0⟩] unsorted =
        .ok (.error (.native "boom"), heap') ∧ heap'.Sound 0) ∧
      (∃ heap', exec relay 2 (.cell ⟨3, 0⟩) [.cell ⟨2, 0⟩, .cell ⟨6, 0⟩] unsorted =
        .ok (.error (.native "boom"), heap') ∧ heap'.Sound 0 ∧
          heap'.items? (.cell ⟨2, 0⟩) = some [.cell ⟨0, 0⟩, .cell ⟨1, 0⟩]) ∧
      ∀ budget, ((unsorted.retainAll [.cell ⟨3, 0⟩, .cell ⟨2, 0⟩, .cell ⟨6, 0⟩]).sweep
        budget).2.isLive (.cell ⟨2, 0⟩) = true := by
  have closure := (calls_balance relay 2 unsorted (.cell ⟨5, 0⟩)).1 [.cell ⟨2, 0⟩, .cell ⟨6, 0⟩]
  have sort := (calls_balance relay 1 unsorted (.cell ⟨3, 0⟩)).1 [.cell ⟨2, 0⟩, .cell ⟨6, 0⟩]
  have issuedClosure : ∀ value ∈ ([.cell ⟨5, 0⟩, .cell ⟨2, 0⟩, .cell ⟨6, 0⟩] : List Value),
      unsorted.Issued value := by
    decide +kernel
  have issuedSort : ∀ value ∈ ([.cell ⟨3, 0⟩, .cell ⟨2, 0⟩, .cell ⟨6, 0⟩] : List Value),
      unsorted.Issued value := by
    decide +kernel
  obtain ⟨afterClosure, called⟩ : ∃ heap',
      exec relay 3 (.cell ⟨5, 0⟩) [.cell ⟨2, 0⟩, .cell ⟨6, 0⟩] unsorted =
        .ok (.error (.native "boom"), heap') :=
    exists_of_outcome (by decide +kernel)
  obtain ⟨afterSort, sorted⟩ : ∃ heap',
      exec relay 2 (.cell ⟨3, 0⟩) [.cell ⟨2, 0⟩, .cell ⟨6, 0⟩] unsorted =
        .ok (.error (.native "boom"), heap') :=
    exists_of_outcome (by decide +kernel)
  have target : unsorted.target? (.cell ⟨3, 0⟩) = some (.plain (.core .sort), .null) := rfl
  have found : unsorted.items? (.cell ⟨2, 0⟩) = some [.cell ⟨0, 0⟩, .cell ⟨1, 0⟩] := by
    decide +kernel
  obtain ⟨items', foundAfter, -, restored⟩ := sort.restores relay_keepsCounts .null target 0
    sound_unsorted issuedSort (.cell ⟨2, 0⟩) _ rfl _ _ sorted _ found
  rw [restored _ rfl] at foundAfter
  refine ⟨⟨afterClosure, called, ?_⟩, ⟨afterSort, sorted, ?_, foundAfter⟩, ?_⟩
  · exact closure.sound relay_keepsCounts 0 sound_unsorted issuedClosure _ _ called
  · exact sort.sound relay_keepsCounts 0 sound_unsorted issuedSort _ _ sorted
  · exact fun budget => (sort.resolves 0 sound_unsorted _ .refl (.cell ⟨2, 0⟩) (by decide)
      (by decide +kernel)).2 budget

/-- A table, a path of two keys, and the native that sets a value at a path. -/
def settingScript : List (Event relaying) :=
  [.request .hash, .request (.string "a.b"), .request (.native (.core .sset))]

theorem isSome_setting :
    (Session.run? (fun _ event => event.isPlain = true) (.start { hashBuckets := 1 })
      settingScript).isSome = true := by
  decide +kernel

/-- The heap with the table and the path. -/
def untouched : Heap relaying :=
  ((Session.run? (fun _ event => event.isPlain = true) (.start { hashBuckets := 1 })
    settingScript).get isSome_setting).heap

theorem sound_untouched : untouched.Sound 0 := by
  have reaches := Session.reaches_of_run? .refl (Option.some_get isSome_setting).symm
  have nothing : ((Session.run? _ (.start { hashBuckets := 1 }) settingScript).get
      isSome_setting).owners = 0 := by
    decide +kernel
  have sound := reaches.sound_owners
  rwa [nothing] at sound

/-- The handle that is to be stored names nothing when the call begins.  It names the inner table
by the time it is stored, and is released when the call ends, but it was never retained. -/
theorem forged_argument_is_miscounted : untouched.Sound 0 ∧ relay.KeepsCounts ∧
    ∃ heap', exec relay 1 (.cell ⟨2, 0⟩) [.cell ⟨0, 0⟩, .cell ⟨1, 0⟩, .cell ⟨3, 0⟩] untouched =
      .ok (.ok .null, heap') ∧ ¬heap'.Exact 0 := by
  have ran : ((exec relay 1 (.cell ⟨2, 0⟩) [.cell ⟨0, 0⟩, .cell ⟨1, 0⟩, .cell ⟨3, 0⟩]
      untouched).toOption.map fun answer =>
        (answer.1, answer.2.isLive (.cell ⟨3, 0⟩), answer.2.refs (.cell ⟨3, 0⟩),
          answer.2.references.count (.cell ⟨3, 0⟩))) = some (.ok .null, true, 1, 2) := by
    decide +kernel
  refine ⟨sound_untouched, relay_keepsCounts, ?_⟩
  revert ran
  cases exec relay 1 (.cell ⟨2, 0⟩) [.cell ⟨0, 0⟩, .cell ⟨1, 0⟩, .cell ⟨3, 0⟩] untouched with
  | error reason => simp [Except.toOption]
  | ok answer =>
      obtain ⟨outcome, heap'⟩ := answer
      intro ran
      simp only [Except.toOption, Option.map_some, Option.some.injEq, Prod.mk.injEq] at ran
      obtain ⟨rfl, live, refs, occurs⟩ := ran
      refine ⟨heap', rfl, fun exact_ => ?_⟩
      have counted := exact_ _ live
      rw [refs, occurs] at counted
      simp at counted

end Heap

end CountedHeap
