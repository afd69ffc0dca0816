import CountedHeap.Proofs.Copies
import Mathlib.Data.List.Flatten

/-!
Contract: copying ends, whatever handles the containers hold.

`Copied` has the rules of copying with no bound on how deep the containers are nested.  The depth
that the definition allows is never used up, so what it computes is derived by the rules.

A container may hold a handle that is not issued yet.  If the copying itself issues it, the walk
goes on from there into the copies made so far.  It finds no way out of them, and enters each at
most once, so each reference of the heap can at most double the number of copies.

Owns:
- the rules;
- `Walk`, which holds between any two visits, and how it is kept;
- the number of containers that may still be entered, and that the depth allowed exceeds it.

Does not own: what the copies look like.
-/

namespace CountedHeap.Heap

variable {σ : Signature} {source heap heap' : Heap σ} {copies copies' : Copies} {known : List Value}

/-! ## The rules -/

mutual

/-- A value is copied: its copy, all copies so far, and the heap. -/
inductive Copied : Copies → Value → Heap σ → Value × Copies × Heap σ → Prop
  /-- A container that was entered answers its copy. -/
  | again {copies : Copies} {value copy : Value} {heap : Heap σ}
      (entered : copies.lookup value = some copy) :
      Copied copies value heap (copy, copies, heap)
  | absent {copies : Copies} {value : Value} {heap : Heap σ}
      (new : copies.lookup value = none) (stale : heap.cell? value = none) :
      Copied copies value heap (.null, copies, heap)
  | container {copies copies' : Copies} {value : Value} {children : List Value}
      {heap heap' : Heap σ} {cell : Cell σ} {shell : Payload σ}
      (new : copies.lookup value = none) (found : heap.cell? value = some cell)
      (multi : cell.payload.shell? = some shell)
      (each : CopiedEach ((value, (heap.create shell).1) :: copies) cell.payload.children
        (heap.create shell).2 (children, copies', heap')) :
      Copied copies value heap
        ((heap.create shell).1, copies', heap'.setChildren (heap.create shell).1 children)
  | plain {copies : Copies} {value : Value} {heap : Heap σ} {cell : Cell σ}
      (new : copies.lookup value = none) (found : heap.cell? value = some cell)
      (single : cell.payload.shell? = none) (scratch : value.isScratch = true)
      (isPlain : cell.payload.isPlainData = true) :
      Copied copies value heap ((heap.create cell.payload).1, copies, (heap.create cell.payload).2)
  | lost {copies : Copies} {value : Value} {heap : Heap σ} {cell : Cell σ}
      (new : copies.lookup value = none) (found : heap.cell? value = some cell)
      (single : cell.payload.shell? = none) (scratch : value.isScratch = true)
      (notPlain : cell.payload.isPlainData = false) :
      Copied copies value heap (.null, copies, heap)
  | same {copies : Copies} {value : Value} {heap : Heap σ} {cell : Cell σ}
      (new : copies.lookup value = none) (found : heap.cell? value = some cell)
      (single : cell.payload.shell? = none) (durable : value.isScratch = false) :
      Copied copies value heap (value, copies, heap)

/-- The values of a list are copied in turn, and each copy is retained. -/
inductive CopiedEach : Copies → List Value → Heap σ → List Value × Copies × Heap σ → Prop
  | nil {copies : Copies} {heap : Heap σ} : CopiedEach copies [] heap ([], copies, heap)
  | cons {copies : Copies} {value : Value} {rest : List Value} {heap : Heap σ}
      {first : Value × Copies × Heap σ} {others : List Value × Copies × Heap σ}
      (one : Copied copies value heap first)
      (more : CopiedEach first.2.1 rest (first.2.2.retain first.1) others) :
      CopiedEach copies (value :: rest) heap (first.1 :: others.1, others.2)

end

/-! ## Copies refer to copies -/

/-- A value that leads to no container but the known ones. -/
def Inside (heap : Heap σ) (known : List Value) (value : Value) : Prop :=
  heap.Issued value ∧ ((heap.kind value).isMulti = true → value ∈ known)

theorem Inside.of_single {value : Value} (issued : heap.Issued value)
    (single : (heap.kind value).isMulti = false) : heap.Inside known value := by
  refine ⟨issued, fun multi => ?_⟩
  rw [single] at multi
  contradiction

/-- No way leads out of the known containers. -/
def Enclosed (heap : Heap σ) (known : List Value) : Prop :=
  ∀ holder ∈ known, heap.Issued holder ∧ ∀ child ∈ heap.children holder, heap.Inside known child

theorem Inside.mono {known' : List Value} {value : Value} (inside : heap.Inside known value)
    (grows : Grows heap heap') (more : ∀ {other}, other ∈ known → other ∈ known') :
    heap'.Inside known' value := by
  refine ⟨grows.issued inside.1, fun multi => more (inside.2 ?_)⟩
  rwa [kind, grows.payload inside.1] at multi

theorem Enclosed.grows (enclosed : heap.Enclosed known) (grows : Grows heap heap') :
    heap'.Enclosed known := by
  intro holder member
  obtain ⟨issued, children⟩ := enclosed holder member
  refine ⟨grows.issued issued, fun child isChild => ?_⟩
  rw [children_of_payload_eq (grows.payload issued)] at isChild
  exact (children child isChild).mono grows id

/-- The copies made so far. -/
abbrev made (copies : Copies) : List Value :=
  copies.map (·.2)

/-- The state between two visits.  What `source` has not issued is a copy, or is no container. -/
structure Walk (source heap : Heap σ) (copies : Copies) : Prop extends Grows source heap where
  consistent : heap.Consistent
  covered : ∀ {value}, ¬source.Issued value → (heap.kind value).isMulti = true →
    value ∈ made copies
  enclosed : heap.Enclosed (made copies)

theorem Walk.start (consistent : source.Consistent) : Walk source source [] where
  toGrows := .refl source
  consistent := consistent
  covered := fun fresh multi => absurd (consistent.issued (isLive_of_isMulti multi)) fresh
  enclosed := fun _ member => absurd member List.not_mem_nil

/-- Changes that leave all payloads alone, and new cells that are no containers. -/
theorem Walk.grow (walk : Walk source heap copies) (consistent : heap'.Consistent)
    (grows : Grows heap heap')
    (single : ∀ {value}, ¬heap.Issued value → (heap'.kind value).isMulti = false) :
    Walk source heap' copies where
  toGrows := walk.toGrows.trans grows
  consistent := consistent
  covered := fun {value} fresh multi => by
    by_cases issued : heap.Issued value
    · rw [kind, grows.payload issued] at multi
      exact walk.covered fresh multi
    · rw [single issued] at multi
      contradiction
  enclosed := walk.enclosed.grows grows

theorem Walk.retain (walk : Walk source heap copies) (value : Value) :
    Walk source (heap.retain value) copies := by
  have consistent : (heap.retain value).Consistent := walk.consistent.modifyCell value _
  apply walk.grow consistent (.retain heap value)
  intro other fresh
  apply eq_false_of_ne_true
  intro multi
  rw [kind, payload_retain] at multi
  exact fresh (walk.consistent.issued (isLive_of_isMulti multi))

theorem Walk.createPlain (walk : Walk source heap copies) {payload : Payload σ}
    (single : payload.kind.isMulti = false) : Walk source (heap.create payload).2 copies := by
  have consistent := walk.consistent
  apply walk.grow (consistent.create payload) (.create consistent payload)
  intro value fresh
  by_cases isNew : value = (heap.create payload).1
  · rwa [isNew, kind, payload_create_self consistent payload]
  · exact kind_create_of_not_issued consistent fresh isNew

/-- A container is entered with its shell, which has no children yet. -/
theorem Walk.enter (walk : Walk source heap copies) {shell : Payload σ}
    (childless : shell.children = []) (value : Value) :
    Walk source (heap.create shell).2 ((value, (heap.create shell).1) :: copies) := by
  have consistent := walk.consistent
  have grows := Grows.create consistent shell
  refine ⟨walk.toGrows.trans grows, consistent.create shell, fun {other} fresh multi => ?_,
    fun holder member => ?_⟩
  · by_cases isNew : other = (heap.create shell).1
    · exact isNew ▸ List.mem_cons_self
    · by_cases issued : heap.Issued other
      · rw [kind, grows.payload issued] at multi
        exact List.mem_cons_of_mem _ (walk.covered fresh multi)
      · rw [kind_create_of_not_issued consistent issued isNew] at multi
        contradiction
  · rcases List.mem_cons.mp member with rfl | before
    · refine ⟨issued_create_self consistent shell, fun child isChild => ?_⟩
      rw [children, payload_create_self consistent, childless] at isChild
      contradiction
    · obtain ⟨issued, children⟩ := walk.enclosed.grows grows holder before
      exact ⟨issued, fun child isChild =>
        (children child isChild).mono (.refl _) (List.mem_cons_of_mem _)⟩

/-- A shell gets its children, which lead to copies only. -/
theorem Walk.fill (walk : Walk source heap copies) {copy : Value} {children : List Value}
    (fresh : ¬source.Issued copy) (multi : (heap.kind copy).isMulti = true)
    (inside : ∀ child ∈ children, heap.Inside (made copies) child) :
    Walk source (heap.setChildren copy children) copies := by
  have sameKind : ((heap.payload copy).withChildren children).kind = heap.kind copy :=
    Payload.kind_withChildren children _
  have still : ∀ {child}, heap.Inside (made copies) child →
      (heap.setPayload copy ((heap.payload copy).withChildren children)).Inside (made copies)
        child := by
    rintro child ⟨issued, known⟩
    refine ⟨(issued_setPayload _ _ _).mpr issued, fun isMulti => known ?_⟩
    rwa [kind_setPayload sameKind] at isMulti
  rw [setChildren_eq_setPayload]
  refine ⟨walk.toGrows.setPayload fresh _, walk.consistent.modifyCell copy _,
    fun {value} fresh isMulti => ?_, fun holder member => ?_⟩
  · rw [kind_setPayload sameKind] at isMulti
    exact walk.covered fresh isMulti
  · obtain ⟨issued, before⟩ := walk.enclosed holder member
    refine ⟨(issued_setPayload _ _ _).mpr issued, fun child isChild => still ?_⟩
    rcases mem_children_setPayload (isLive_of_isMulti multi) isChild with ⟨-, isNew⟩ | isOld
    · rw [Payload.children_withChildren_of_isMulti multi] at isNew
      exact inside child isNew
    · exact before child isOld

/-! ## Visits -/

/-- What a visit leaves. -/
structure Visited (source heap : Heap σ) (copies : Copies) (result : Value × Copies × Heap σ) :
    Prop where
  walk : Walk source result.2.2 result.2.1
  grows : Grows heap result.2.2
  entered : copies <:+ result.2.1
  inside : result.2.2.Inside (made result.2.1) result.1

/-- What the visits of a list leave. -/
structure VisitedEach (source heap : Heap σ) (copies : Copies)
    (result : List Value × Copies × Heap σ) : Prop where
  walk : Walk source result.2.2 result.2.1
  grows : Grows heap result.2.2
  entered : copies <:+ result.2.1
  inside : ∀ copy ∈ result.1, result.2.2.Inside (made result.2.1) copy

/-- The values of a list are visited in turn.  `bound` bounds the copies that there will be when
some more values have been visited, and `good` is what a visit asks of its value. -/
theorem visitedEach (bound : Nat → Copies → Nat) (good : Heap σ → Value → Prop)
    {clone : Copies → Value → Heap σ → Value × Copies × Heap σ} {depth total : Nat}
    (stable : ∀ {heap heap' : Heap σ} {value}, Grows heap heap' → good heap value →
      good heap' value)
    (visit : ∀ {ahead copies heap value}, Walk source heap copies → good heap value →
      bound (ahead + 1) copies ≤ total → total < depth + copies.length →
        Copied copies value heap (clone copies value heap) ∧
        Visited source heap copies (clone copies value heap) ∧
        bound ahead (clone copies value heap).2.1 ≤ total)
    {values : List Value} (walk : Walk source heap copies)
    (allGood : ∀ value ∈ values, good heap value) (within : bound values.length copies ≤ total)
    (deep : total < depth + copies.length) :
    CopiedEach copies values heap (cloneEach clone copies values heap) ∧
      VisitedEach source heap copies (cloneEach clone copies values heap) ∧
      bound 0 (cloneEach clone copies values heap).2.1 ≤ total := by
  induction values generalizing copies heap with
  | nil => exact ⟨.nil, ⟨walk, .refl heap, List.suffix_rfl, fun _ => nofun⟩, within⟩
  | cons value rest inductionHypothesis =>
      obtain ⟨valueGood, restGood⟩ := List.forall_mem_cons.mp allGood
      obtain ⟨copied, visited, left⟩ := visit walk valueGood within deep
      have retaining := Grows.retain (clone copies value heap).2.2 (clone copies value heap).1
      have stillDeep : total < depth + (clone copies value heap).2.1.length :=
        Nat.lt_of_lt_of_le deep (Nat.add_le_add_left visited.entered.length_le depth)
      obtain ⟨othersCopied, others, done⟩ := inductionHypothesis
        (visited.walk.retain (clone copies value heap).1)
        (fun other member => stable (visited.grows.trans retaining) (restGood other member))
        left stillDeep
      refine ⟨.cons copied othersCopied, ⟨others.walk, (visited.grows.trans retaining).trans
        others.grows, visited.entered.trans others.entered, fun copy member => ?_⟩, done⟩
      rcases List.mem_cons.mp member with rfl | later
      · apply visited.inside.mono (retaining.trans others.grows)
        intro other known
        obtain ⟨entry, isEntry, rfl⟩ := List.mem_map.mp known
        exact List.mem_map.mpr ⟨entry, others.entered.subset isEntry, rfl⟩
      · exact others.inside copy later

/-- A container whose children have been visited is filled with their copies. -/
theorem VisitedEach.fill (walk : Walk source heap copies) {value : Value} {shell : Payload σ}
    (multi : shell.kind.isMulti = true) {result : List Value × Copies × Heap σ}
    (each : VisitedEach source (heap.create shell).2 ((value, (heap.create shell).1) :: copies)
      result) :
    Visited source heap copies
      ((heap.create shell).1, result.2.1,
        result.2.2.setChildren (heap.create shell).1 result.1) := by
  have consistent := walk.consistent
  have unissued := not_issued_create consistent shell
  have shellMulti : (result.2.2.kind (heap.create shell).1).isMulti = true := by
    rwa [kind, each.grows.payload (issued_create_self consistent shell),
      payload_create_self consistent]
  have filled := each.walk.fill (fun issued => unissued (walk.issued issued)) shellMulti each.inside
  have member : (heap.create shell).1 ∈ made result.2.1 :=
    List.mem_map.mpr ⟨_, each.entered.subset List.mem_cons_self, rfl⟩
  refine ⟨filled, ?_, (List.suffix_cons _ _).trans each.entered,
    (filled.enclosed _ member).1, fun _ => member⟩
  simp only
  rw [setChildren_eq_setPayload]
  exact ((Grows.create consistent shell).trans each.grows).setPayload unissued _

/-- One visit, if it is known what the visits of the children leave. -/
theorem visited_succ (bound : Copies → Nat) {depth total : Nat} {value : Value}
    (walk : Walk source heap copies) (before : bound copies ≤ total)
    (each : ∀ {cell shell}, copies.lookup value = none → heap.cell? value = some cell →
      cell.payload.shell? = some shell →
        let entered := (value, (heap.create shell).1) :: copies
        let result := cloneEach (cloneWithin depth) entered cell.payload.children
          (heap.create shell).2
        CopiedEach entered cell.payload.children (heap.create shell).2 result ∧
          VisitedEach source (heap.create shell).2 entered result ∧ bound result.2.1 ≤ total) :
    Copied copies value heap (cloneWithin (depth + 1) copies value heap) ∧
      Visited source heap copies (cloneWithin (depth + 1) copies value heap) ∧
      bound (cloneWithin (depth + 1) copies value heap).2.1 ≤ total := by
  have consistent := walk.consistent
  have unchanged : ∀ {answer}, heap.Inside (made copies) answer →
      Visited source heap copies (answer, copies, heap) := fun inside =>
    ⟨walk, .refl heap, List.suffix_rfl, inside⟩
  have absent : heap.Inside (made copies) .null := ⟨issued_null, nofun⟩
  rw [cloneWithin]
  split
  next copy found =>
    refine ⟨.again found, unchanged ?_, before⟩
    obtain ⟨front, back, rfl, -⟩ := List.lookup_eq_some_iff.mp found
    have member : copy ∈ made (front ++ (value, copy) :: back) := by simp
    exact ⟨(walk.enclosed copy member).1, fun _ => member⟩
  next new =>
    split
    next stale => exact ⟨.absent new stale, unchanged absent, before⟩
    next cell found =>
      split
      next shell multi =>
        obtain ⟨copied, visited, done⟩ := each new found multi
        refine ⟨.container new found multi copied, visited.fill walk ?_, done⟩
        obtain ⟨isMulti, rfl⟩ := Payload.shell?_eq_some_iff.mp multi
        rwa [Payload.kind_withChildren]
      next single =>
        have isSingle := Payload.shell?_eq_none_iff.mp single
        split
        next scratch =>
          split
          next isPlain =>
            refine ⟨.plain new found single scratch isPlain, ⟨walk.createPlain isSingle,
              .create consistent _, List.suffix_rfl,
              .of_single (issued_create_self consistent _) ?_⟩, before⟩
            rwa [kind, payload_create_self consistent]
          next notPlain =>
            exact ⟨.lost new found single scratch (eq_false_of_ne_true notPlain),
              unchanged absent, before⟩
        next durable =>
          refine ⟨.same new found single (eq_false_of_ne_true durable), unchanged (.of_single
            (consistent.issued (isLive_of_cell? found)) ?_), before⟩
          rwa [kind, payload_of_cell? found]

/-! ## How much there is to visit -/

/-- How many of some containers have not been entered. -/
def unenteredOf (known : List Value) (copies : Copies) : Nat :=
  (known.filter fun value => decide (value ∉ copies.map (·.1))).length

/-- How many references there are in the cells of `source` that have not been entered. -/
def unread (source : Heap σ) (copies : Copies) : Nat :=
  ((source.handles.filter fun value => decide (value ∉ copies.map (·.1))).flatMap
    source.children).length

/-- A bound on the copies that there will be when some more references have been followed. -/
def copyBound (source : Heap σ) (ahead : Nat) (copies : Copies) : Nat :=
  (copies.length + source.uncopied copies) * 2 ^ (source.unread copies + ahead)

theorem not_mem_keys {value : Value} (new : copies.lookup value = none) :
    value ∉ copies.map (·.1) := by
  intro inside
  obtain ⟨entry, isEntry, rfl⟩ := List.mem_map.mp inside
  simpa using List.lookup_eq_none_iff.mp new entry isEntry

/-- What is left when one more value is entered. -/
theorem filter_entered (values : List Value) (value shell : Value) :
    (values.filter fun other => decide (other ∉ ((value, shell) :: copies).map (·.1))) =
      (values.filter fun other => decide (other ∉ copies.map (·.1))).filter (· != value) := by
  rw [List.filter_filter]
  apply List.filter_congr
  intro other _
  rw [List.map_cons]
  by_cases same : other = value <;> simp [same, bne]

theorem unenteredOf_cons_lt {value : Value} (member : value ∈ known)
    (new : copies.lookup value = none) (shell : Value) :
    unenteredOf known ((value, shell) :: copies) < unenteredOf known copies := by
  unfold unenteredOf
  rw [filter_entered]
  apply List.length_filter_lt_length_iff_exists.mpr
  refine ⟨value, List.mem_filter.mpr ⟨member, decide_eq_true (not_mem_keys new)⟩, ?_⟩
  simp

theorem unread_le (entered : copies <:+ copies') :
    source.unread copies' ≤ source.unread copies := by
  apply List.Sublist.length_le
  apply List.Sublist.flatMap
  apply List.monotone_filter_right
  intro value outside
  simp only [decide_eq_true_eq] at outside ⊢
  intro inside
  obtain ⟨entry, isEntry, rfl⟩ := List.mem_map.mp inside
  exact outside (List.mem_map.mpr ⟨entry, entered.subset isEntry, rfl⟩)

/-- The references of a cell that is entered are read. -/
theorem unread_cons {value : Value} (live : source.isLive value = true)
    (new : copies.lookup value = none) (shell : Value) :
    source.unread ((value, shell) :: copies) + (source.children value).length =
      source.unread copies := by
  have member : value ∈ source.handles.filter fun other => decide (other ∉ copies.map (·.1)) :=
    List.mem_filter.mpr ⟨mem_handles_iff.mpr live, decide_eq_true (not_mem_keys new)⟩
  have split := ((List.perm_cons_erase member).flatMap_right source.children).length_eq
  unfold unread
  rw [filter_entered, ← (handles_nodup.filter _).erase_eq_filter, split, List.flatMap_cons,
    List.length_append, Nat.add_comm]

/-- A container of `source` is entered: its references are the next to be followed. -/
theorem copyBound_enter {value : Value} (multi : (source.kind value).isMulti = true)
    (new : copies.lookup value = none) (shell : Value) (ahead : Nat) :
    source.copyBound (ahead + (source.children value).length) ((value, shell) :: copies) ≤
      source.copyBound ahead copies := by
  have fewer : source.uncopied ((value, shell) :: copies) < source.uncopied copies := by
    apply uncopied_cons_lt multi
    intro copy member
    exact not_mem_keys new (List.mem_map.mpr ⟨_, member, rfl⟩)
  have read := unread_cons (isLive_of_isMulti multi) new shell
  have sameRoom : source.unread ((value, shell) :: copies) +
      (ahead + (source.children value).length) = source.unread copies + ahead := by
    omega
  rw [copyBound, sameRoom, List.length_cons]
  exact Nat.mul_le_mul_right _ (by omega)

/-- A handle that the copying issued itself leads to no more copies than there were. -/
theorem copyBound_double (entered : copies <:+ copies')
    (doubled : copies'.length ≤ 2 * copies.length) (ahead : Nat) :
    source.copyBound ahead copies' ≤ source.copyBound (ahead + 1) copies := by
  have fewer : source.uncopied copies' ≤ source.uncopied copies :=
    uncopied_le fun {_} member => entered.subset member
  calc source.copyBound ahead copies'
      ≤ (2 * (copies.length + source.uncopied copies)) * 2 ^ (source.unread copies + ahead) :=
        Nat.mul_le_mul (by omega) (Nat.pow_le_pow_right (by decide)
          (Nat.add_le_add_right (unread_le entered) ahead))
    _ = source.copyBound (ahead + 1) copies := by
        rw [copyBound, ← Nat.add_assoc, Nat.pow_succ, Nat.mul_comm 2, Nat.mul_assoc,
          Nat.mul_comm 2]

/-- There are at most half as many copies as the bound for one more reference. -/
theorem two_mul_length_le_copyBound (source : Heap σ) (copies : Copies) (ahead : Nat) :
    2 * copies.length ≤ source.copyBound (ahead + 1) copies := by
  rw [Nat.mul_comm]
  exact Nat.mul_le_mul (Nat.le_add_right _ _) (Nat.le_self_pow (Nat.succ_ne_zero _) 2)

theorem copyBound_le_succ (copies : Copies) (ahead : Nat) :
    source.copyBound ahead copies ≤ source.copyBound (ahead + 1) copies :=
  Nat.mul_le_mul_left _ (Nat.pow_le_pow_right (by decide) (by omega))

/-! ## The depth -/

/-- A visit that starts among known containers stays there. -/
theorem visited_inside (depth : Nat) {value : Value} {total : Nat} (walk : Walk source heap copies)
    (enclosed : heap.Enclosed known) (inside : heap.Inside known value)
    (within : copies.length + unenteredOf known copies ≤ total)
    (deep : total < depth + copies.length) :
    Copied copies value heap (cloneWithin depth copies value heap) ∧
      Visited source heap copies (cloneWithin depth copies value heap) ∧
      (cloneWithin depth copies value heap).2.1.length +
        unenteredOf known (cloneWithin depth copies value heap).2.1 ≤ total := by
  induction depth generalizing copies value heap with
  | zero => omega
  | succ depth inductionHypothesis =>
      apply visited_succ (fun copies => copies.length + unenteredOf known copies) walk within
      intro cell shell new found multi
      obtain ⟨isMulti, rfl⟩ := Payload.shell?_eq_some_iff.mp multi
      have payload := payload_of_cell? found
      have member : value ∈ known := inside.2 (by rwa [kind, payload])
      have fewer := unenteredOf_cons_lt member new
        (heap.create (cell.payload.withChildren [])).1
      have making := Grows.create walk.consistent (cell.payload.withChildren [])
      apply visitedEach (fun _ copies => copies.length + unenteredOf known copies)
        (fun heap value => heap.Enclosed known ∧ heap.Inside known value)
        (fun grows good => ⟨good.1.grows grows, good.2.mono grows id⟩)
        (fun walk good within deep => inductionHypothesis walk good.1 good.2 within deep)
        (walk.enter (children_shell _) value)
      · intro child isChild
        rw [← payload] at isChild
        exact ⟨enclosed.grows making, ((enclosed value member).2 child isChild).mono making id⟩
      · rw [List.length_cons]
        omega
      · rw [List.length_cons]
        omega

/-- A visit of any value, if there is room for one more reference. -/
theorem visited_within (depth : Nat) {value : Value} {ahead total : Nat}
    (walk : Walk source heap copies) (within : source.copyBound (ahead + 1) copies ≤ total)
    (deep : total < depth + copies.length) :
    Copied copies value heap (cloneWithin depth copies value heap) ∧
      Visited source heap copies (cloneWithin depth copies value heap) ∧
      source.copyBound ahead (cloneWithin depth copies value heap).2.1 ≤ total := by
  induction depth generalizing copies value heap ahead with
  | zero =>
      have few := two_mul_length_le_copyBound source copies ahead
      omega
  | succ depth inductionHypothesis =>
      by_cases foretold : ¬source.Issued value ∧ (heap.kind value).isMulti = true
      · -- The walk comes to a copy.  All that it can lead to is among the copies made so far.
        obtain ⟨fresh, multi⟩ := foretold
        have few := two_mul_length_le_copyBound source copies ahead
        have left : unenteredOf (made copies) copies ≤ copies.length := by
          apply (List.length_filter_le _ _).trans
          rw [List.length_map]
        obtain ⟨copied, visited, done⟩ := visited_inside (depth + 1) walk walk.enclosed
          ⟨walk.consistent.issued (isLive_of_isMulti multi), walk.covered fresh⟩
          (Nat.le_refl _) (by omega)
        exact ⟨copied, visited, (copyBound_double visited.entered (by omega) ahead).trans within⟩
      · apply visited_succ (source.copyBound ahead) walk
          ((copyBound_le_succ copies ahead).trans within)
        intro cell shell new found multi
        obtain ⟨isMulti, rfl⟩ := Payload.shell?_eq_some_iff.mp multi
        have issued : source.Issued value := by
          by_contra fresh
          exact foretold ⟨fresh, by rwa [kind, payload_of_cell? found]⟩
        have payload : cell.payload = source.payload value := by
          rw [← walk.payload issued, payload_of_cell? found]
        have room := (copyBound_enter (by rwa [kind, ← payload]) new
          (heap.create (cell.payload.withChildren [])).1 ahead).trans
          ((copyBound_le_succ copies ahead).trans within)
        apply visitedEach (fun more copies => source.copyBound (ahead + more) copies)
          (fun _ _ => True) (fun _ _ => trivial)
          (fun walk _ within deep => inductionHypothesis walk within deep)
          (walk.enter (children_shell _) value) (fun _ _ => trivial)
        · rw [payload] at room ⊢
          exact room
        · rw [List.length_cons]
          omega

/-- Copying a value ends, whatever handles the heap holds: the depth allowed is never used up. -/
theorem copied_clone (consistent : heap.Consistent) (value : Value) :
    ∃ copies, Copied [] value heap ((heap.clone value).1, copies, (heap.clone value).2) := by
  have few : heap.uncopied [] < 2 ^ heap.handles.length :=
    Nat.lt_of_le_of_lt (List.length_filter_le _ _) Nat.lt_two_pow_self
  have read : heap.unread [] ≤ heap.references.length :=
    ((List.filter_sublist).flatMap heap.children).length_le
  have deep : heap.copyBound 1 [] < heap.cloneDepth := by
    calc heap.copyBound 1 []
        ≤ heap.uncopied [] * 2 ^ (heap.references.length + 1) := by
          rw [copyBound, List.length_nil, Nat.zero_add]
          exact Nat.mul_le_mul_left _
            (Nat.pow_le_pow_right (by decide) (Nat.add_le_add_right read 1))
      _ < 2 ^ heap.handles.length * 2 ^ (heap.references.length + 1) :=
          Nat.mul_lt_mul_of_pos_right few (Nat.two_pow_pos _)
      _ = heap.cloneDepth := (Nat.pow_add 2 _ _).symm
  rw [clone]
  generalize heap.cloneDepth = depth at deep ⊢
  exact ⟨_, (visited_within depth (.start consistent) (Nat.le_refl _) deep).1⟩

end CountedHeap.Heap
