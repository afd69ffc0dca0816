import CountedHeap.Proofs.Calls

/-!
Contract: what a program holds is safe from what runs inside it.

A callee begins with nothing of its own.  It can do whatever a program can do that holds nothing
else and is in the middle of nothing else.  So the references that its caller holds stay, and the
cells of those values too, at every moment before it returns.

Owns:
- sessions inside other sessions;
- that a value held from outside stays live, and of its kind, in every session that is reached;
- one heap becoming another through a callee.
-/

namespace CountedHeap

variable {σ : Signature}

namespace Session

variable {session session' first inside : Session σ} {event : Event σ}
  {leaked held owners : Multiset Value} {activities : List Activity} {value : Value} {kind : Kind}

/-- A session that runs inside another one, which owns `owners` and is in the middle of
`activities`. -/
def framed (session : Session σ) (owners : Multiset Value) (activities : List Activity) :
    Session σ where
  heap := session.heap
  owners := session.owners + owners
  activities := session.activities ++ activities

theorem framed_start (heap : Heap σ) (owners : Multiset Value) (activities : List Activity) :
    ({ heap } : Session σ).framed owners activities = { heap, owners, activities } := by
  rw [framed, zero_add, List.nil_append]

/-- What can happen on its own can happen inside another session. -/
theorem Moves.framed (moves : session.Moves event session') (owners : Multiset Value)
    (activities : List Activity) :
    (session.framed owners activities).Moves event (session'.framed owners activities) := by
  cases moves with
  | request issued done => exact .request issued done
  | retain issued =>
      simp only [Session.framed, Multiset.cons_add]
      exact .retain issued
  | @release value owned =>
      simp only [Session.framed, ← Multiset.erase_add_left_pos owners owned]
      exact .release (Multiset.mem_add.mpr (.inl owned))
  | root issued =>
      simp only [Session.framed, Multiset.cons_add]
      exact .root issued
  | @unroot root owned =>
      simp only [Session.framed, ← Multiset.erase_add_left_pos owners owned]
      exact .unroot (Multiset.mem_add.mpr (.inl owned))
  | openScope => exact .openScope
  | closeScope innermost => exact .closeScope (congrArg (· ++ activities) innermost)
  | sweep => exact .sweep
  | enter issued => exact .enter issued
  | leave innermost => exact .leave (congrArg (· ++ activities) innermost)
  | detach found => exact .detach found
  | restore innermost perm => exact .restore (congrArg (· ++ activities) innermost) perm

theorem Reaches.framed (reaches : Reaches (fun _ _ => True) first session)
    (owners : Multiset Value) (activities : List Activity) :
    Reaches (fun _ _ => True) (first.framed owners activities)
      (session.framed owners activities) := by
  induction reaches with
  | refl => exact .refl
  | step _ _ moves inductionHypothesis =>
      exact .step inductionHypothesis trivial (moves.framed owners activities)

/-! ## What stays -/

/-- A value that is live, of a kind, and dropped by none of the scopes that are open. -/
structure Spares (session : Session σ) (kind : Kind) (value : Value) : Prop where
  live : session.heap.isLive value = true
  kind : session.heap.kind value = kind
  below : ∀ mark, .scope mark ∈ session.activities → value ∈ Heap.belowMark mark

/-- Another heap in which the value is what it was, with no other scope. -/
theorem Spares.carry (spares : session.Spares kind value)
    (live : session'.heap.isLive value = true)
    (same : session'.heap.kind value = session.heap.kind value)
    (scopes : ∀ mark, .scope mark ∈ session'.activities → .scope mark ∈ session.activities) :
    session'.Spares kind value where
  live := live
  kind := same.trans spares.kind
  below := fun mark member => spares.below mark (scopes mark member)

theorem Spares.keep {cells : Set Value} (spares : session.Spares kind value)
    (sound : session.Sound leaked)
    (keeps : Heap.Keeps cells session.heap session'.heap)
    (scopes : ∀ mark, .scope mark ∈ session'.activities → .scope mark ∈ session.activities) :
    session'.Spares kind value := by
  have issued := sound.heap.toConsistent.issued spares.live
  exact spares.carry ((keeps.live issued).trans spares.live) (keeps.kind issued) scopes

theorem Spares.thin {spared : Set Value} (spares : session.Spares kind value)
    (thins : Heap.Thins spared session.heap session'.heap) (member : value ∈ spared)
    (scopes : ∀ mark, .scope mark ∈ session'.activities → .scope mark ∈ session.activities) :
    session'.Spares kind value := by
  have live := thins.spares member spares.live
  refine spares.carry live ?_ scopes
  rw [Heap.kind, thins.payload live, Heap.kind]

/-- No event takes away what the session owns. -/
theorem Moves.spares (moves : session.Moves event session') (sound : session.Sound leaked)
    (owned : value ∈ session.owners) (spares : session.Spares kind value) :
    session'.Spares kind value := by
  have scopes : ∀ {activity : Activity} {rest : List Activity},
      session.activities = activity :: rest →
        ∀ mark, Activity.scope mark ∈ rest → Activity.scope mark ∈ session.activities :=
    fun innermost mark member => innermost ▸ .tail _ member
  cases moves with
  | request issued done =>
      exact spares.keep sound (Heap.Step.perform sound.heap issued done).keeps fun _ => id
  | retain issued | root issued =>
      exact spares.keep sound (Heap.Step.retain sound.heap issued).keeps fun _ => id
  | release | unroot =>
      refine spares.carry ((Heap.isLive_release _ _).trans spares.live) ?_ fun _ => id
      exact congrArg Payload.kind (Heap.payload_release _ _ _)
  | openScope =>
      refine ⟨spares.live, spares.kind, fun mark member => ?_⟩
      rcases List.mem_cons.mp member with opened | before
      · obtain rfl := Activity.scope.inj opened
        exact Heap.mem_belowMark_of_isLive spares.live
      · exact spares.below mark before
  | @closeScope mark rest innermost =>
      have below : value ∈ Heap.belowMark mark :=
        spares.below mark (innermost ▸ List.mem_cons_self)
      exact spares.thin (Heap.Thins.unwind sound.heap mark).2 below (scopes innermost)
  | @sweep budget =>
      have anchor : value ∈ Heap.anchors (session.held + leaked) :=
        .inl (Multiset.mem_add.mpr (.inl (Multiset.mem_add.mpr (.inl owned))))
      exact spares.thin (Heap.Thins.sweep sound.heap budget).2 anchor fun _ => id
  | enter issued =>
      exact spares.keep sound (Heap.Step.retainAll sound.heap issued).keeps (by simp)
  | leave innermost =>
      refine spares.carry ((Heap.isLive_releaseAll _ _ _).trans spares.live) ?_ (scopes innermost)
      exact congrArg Payload.kind (Heap.payload_releaseAll _ _ _)
  | detach found =>
      exact spares.keep sound (Heap.Step.detach sound.heap found).keeps (by simp)
  | @restore sequence items items' rest innermost perm =>
      refine spares.carry ((Heap.isLive_restoreItems _ _ _ _).trans spares.live) ?_
        (scopes innermost)
      exact Heap.kind_restoreItems _ _ _ _

/-- What is held from outside stays as long as the callee runs. -/
theorem Reaches.spares (reaches : Reaches (fun _ _ => True) first inside)
    (sound : (first.framed held []).Sound leaked) (member : value ∈ held)
    (spares : (first.framed held []).Spares kind value) :
    (inside.framed held []).Spares kind value := by
  induction reaches with
  | refl => exact spares
  | step before _ moves inductionHypothesis =>
      obtain ⟨leakedBetween, between⟩ := (before.framed held []).sound sound
      exact (moves.framed held []).spares between (Multiset.mem_add.mpr (.inr member))
        inductionHypothesis

end Session

/-! ## Callees -/

/-- One heap becomes another by events, beginning and ending with nothing owned and nothing in
progress. -/
def Heap.Becomes (heap heap' : Heap σ) : Prop :=
  Session.Reaches (fun _ _ => True) { heap } { heap := heap' }

namespace Heap

variable {heap heap' heap'' : Heap σ} {held : Multiset Value} {value : Value}

theorem Becomes.refl (heap : Heap σ) : heap.Becomes heap :=
  Session.Reaches.refl

theorem Becomes.trans (first : heap.Becomes heap') (second : heap'.Becomes heap'') :
    heap.Becomes heap'' :=
  Session.Reaches.trans first second

theorem Becomes.framed (becomes : heap.Becomes heap') (owners : Multiset Value)
    (activities : List Activity) :
    Session.Reaches (fun _ _ => True) { heap, owners, activities }
      { heap := heap', owners, activities } := by
  have reaches := Session.Reaches.framed becomes owners activities
  rwa [Session.framed_start, Session.framed_start] at reaches

theorem Sound.session (sound : heap.Sound held) :
    ({ heap, owners := held } : Session σ).Sound 0 where
  heap := by rwa [Session.held, heldBy, add_zero, add_zero]
  durable := by simp

theorem Becomes.issued (becomes : heap.Becomes heap') (sound : heap.Sound held)
    (issued : heap.Issued value) : heap'.Issued value :=
  (becomes.framed held []).issued sound.session issued

/-- Whatever a callee is in the middle of, the values that its caller holds are there. -/
theorem Sound.stays (sound : heap.Sound held) {inside : Session σ}
    (reaches : Session.Reaches (fun _ _ => True) { heap } inside) (member : value ∈ held)
    (live : heap.isLive value = true) :
    inside.heap.isLive value = true ∧ inside.heap.kind value = heap.kind value := by
  have entered : (({ heap } : Session σ).framed held []).Sound 0 := by
    rw [Session.framed_start]
    exact sound.session
  have spares := reaches.spares entered member ⟨live, rfl, by simp [Session.framed]⟩
  exact ⟨spares.live, spares.kind⟩

end Heap

end CountedHeap
