import CountedHeap.Proofs.Guarded
import CountedHeap.Sequence.Sort

/-!
Contract: the merge sort in two arrays of the same length, spelled by guarded steps.

Runs of doubling width are merged from one array into the other, element by element, and then the
arrays change places.  The elements that are sorted are the numbers of the records.

Owns:
- merging two runs by indexes, one pass, and all passes, and that they come to the merge sort of
  lists whatever the question answers;
- the sort of an array by questions about the elements at computed indexes, which never missteps.
-/

namespace CountedHeap

/-! ## What a computation yields -/

section Yields

variable {n : Type → Type} [Monad n] {α β : Type}

/-- What follows a computation need only be right for results of which `post` holds. -/
structure Yields (post : α → Prop) (run : n α) : Prop where
  next_eq : ∀ {β : Type} {next next' : α → n β},
    (∀ result, post result → next result = next' result) → (run >>= next) = (run >>= next')

theorem Yields.always [LawfulMonad n] (run : n α) : Yields (fun _ => True) run where
  next_eq same := bind_congr fun result => same result trivial

theorem Yields.pure [LawfulMonad n] {post : α → Prop} {result : α} (holds : post result) :
    Yields post (Pure.pure result : n α) where
  next_eq same := by rw [pure_bind, pure_bind, same result holds]

theorem Yields.bind [LawfulMonad n] {post : α → Prop} {post' : β → Prop} {run : n α}
    {next : α → n β} (yields : Yields post run)
    (onward : ∀ result, post result → Yields post' (next result)) :
    Yields post' (run >>= next) where
  next_eq same := by
    rw [bind_assoc, bind_assoc]
    exact yields.next_eq fun result holds => (onward result holds).next_eq same

end Yields

namespace Records

variable {n : Type → Type} [Monad n] {α : Type} {precedes : α → α → n Bool}

/-- Merging with an empty run asks nothing. -/
theorem mergeM_of_nil {earlier later : List α} (empty : earlier = [] ∨ later = []) :
    mergeM precedes earlier later = pure (earlier ++ later) := by
  rcases empty with rfl | rfl
  · rw [mergeM, List.nil_append]
  · cases earlier <;> simp [mergeM]

theorem yields_mergeM [LawfulMonad n] (precedes : α → α → n Bool) (earlier later : List α) :
    Yields (fun merged => merged.length = earlier.length + later.length)
      (mergeM precedes earlier later) := by
  induction total : earlier.length + later.length generalizing earlier later with
  | zero =>
      have empty : earlier = [] := List.length_eq_zero_iff.mp (by omega)
      rw [mergeM_of_nil (.inl empty)]
      exact .pure (by rw [List.length_append, total])
  | succ count inductionHypothesis =>
      cases earlier with
      | nil =>
          rw [mergeM_of_nil (.inl rfl)]
          exact .pure (by rw [List.length_append, total])
      | cons first earlier =>
          cases later with
          | nil =>
              rw [mergeM_of_nil (.inr rfl)]
              exact .pure (by rw [List.length_append, total])
          | cons second later =>
              simp only [List.length_cons] at total
              rw [mergeM]
              refine (Yields.always _).bind fun answer _ => ?_
              cases answer with
              | true =>
                  refine (inductionHypothesis (first :: earlier) later
                    (by simp only [List.length_cons]; omega)).bind fun merged length => ?_
                  exact .pure (by rw [List.length_cons, length])
              | false =>
                  refine (inductionHypothesis earlier (second :: later)
                    (by simp only [List.length_cons]; omega)).bind fun merged length => ?_
                  exact .pure (by rw [List.length_cons, length])

/-! ## Runs of one width -/

/-- A list cut into runs of `width` elements.  The last one may be shorter. -/
def runsOf (width : Nat) (items : List α) : List (List α) :=
  if 0 < width ∧ items ≠ [] then items.take width :: runsOf width (items.drop width) else []
termination_by items.length
decreasing_by
  rename_i both
  have positive := List.length_pos_iff.mpr both.2
  rw [List.length_drop]
  omega

variable {width : Nat}

theorem runsOf_nil (width : Nat) : runsOf width ([] : List α) = [] := by
  rw [runsOf, if_neg fun both => both.2 rfl]

theorem runsOf_of_ne_nil (positive : 0 < width) {items : List α} (nonempty : items ≠ []) :
    runsOf width items = items.take width :: runsOf width (items.drop width) := by
  rw [runsOf, if_pos ⟨positive, nonempty⟩]

/-- A list no longer than a run is one run. -/
theorem runsOf_of_length_le {items : List α} (positive : 0 < width) (nonempty : items ≠ [])
    (short : items.length ≤ width) : runsOf width items = [items] := by
  rw [runsOf_of_ne_nil positive nonempty, List.take_of_length_le short,
    List.drop_eq_nil_of_le short, runsOf_nil]

theorem runsOf_append {run : List α} (positive : 0 < width) (length : run.length = width)
    (rest : List α) : runsOf width (run ++ rest) = run :: runsOf width rest := by
  have nonempty : run ++ rest ≠ [] := by
    intro empty
    have total := congrArg List.length empty
    rw [List.length_append, List.length_nil] at total
    omega
  rw [runsOf_of_ne_nil positive nonempty, List.take_left' length, List.drop_left' length]

theorem flatten_runsOf (positive : 0 < width) (items : List α) :
    (runsOf width items).flatten = items := by
  induction total : items.length using Nat.strong_induction_on generalizing items with
  | _ total inductionHypothesis =>
      by_cases empty : items = []
      · rw [empty, runsOf_nil, List.flatten_nil]
      · have nonempty := List.length_pos_iff.mpr empty
        rw [runsOf_of_ne_nil positive empty, List.flatten_cons,
          inductionHypothesis (items.drop width).length (by rw [List.length_drop]; omega) _ rfl,
          List.take_append_drop]

theorem runsOf_one (items : List α) : runsOf 1 items = items.map ([·]) := by
  induction items with
  | nil => exact runsOf_nil 1
  | cons head rest inductionHypothesis =>
      rw [← List.singleton_append, runsOf_append Nat.one_pos rfl, inductionHypothesis]
      rfl

theorem yields_mergePairsM_flatten [LawfulMonad n] (precedes : α → α → n Bool)
    (runs : List (List α)) :
    Yields (fun merged => merged.flatten.length = runs.flatten.length)
      (mergePairsM precedes runs) := by
  induction runs using mergePairsM.induct with
  | case1 first second rest inductionHypothesis =>
      rw [mergePairsM]
      refine (yields_mergeM precedes first second).bind fun merged length => ?_
      refine inductionHypothesis.bind fun others total => .pure ?_
      rw [List.flatten_cons, List.flatten_cons, List.flatten_cons, List.length_append,
        List.length_append, List.length_append, length, total, Nat.add_assoc]
  | case2 runs notPair =>
      have kept : mergePairsM precedes runs = pure runs := by
        cases runs with
        | nil => rfl
        | cons first rest =>
            cases rest with
            | nil => rfl
            | cons second rest => exact absurd rfl (notPair first second rest)
      rw [kept]
      exact .pure rfl

/-- A pass over runs of one width, two runs at a time.  A run without a partner is merged with
nothing. -/
theorem mergePairsM_runsOf [LawfulMonad n] (positive : 0 < width) (precedes : α → α → n Bool)
    {items : List α} (nonempty : items ≠ []) :
    mergePairsM precedes (runsOf width items) = (do
      let merged ← mergeM precedes (items.take width) ((items.drop width).take width)
      let others ← mergePairsM precedes (runsOf width (items.drop (width + width)))
      return merged :: others) := by
  rw [runsOf_of_ne_nil positive nonempty]
  by_cases single : items.drop width = []
  · have nothing : items.drop (width + width) = [] := by
      rw [← List.drop_drop, single, List.drop_nil]
    rw [single, nothing, runsOf_nil, List.take_nil, mergeM_of_nil (.inr rfl), List.append_nil,
      pure_bind]
    simp [mergePairsM]
  · rw [runsOf_of_ne_nil positive single, mergePairsM, List.drop_drop]

/-- A pass over runs of one width leaves runs of the double width. -/
theorem yields_mergePairsM_runsOf [LawfulMonad n] (positive : 0 < width)
    (precedes : α → α → n Bool) (items : List α) :
    Yields (fun merged => merged.flatten.length = items.length ∧
      runsOf (2 * width) merged.flatten = merged) (mergePairsM precedes (runsOf width items)) := by
  induction total : items.length using Nat.strong_induction_on generalizing items with
  | _ total inductionHypothesis =>
      by_cases empty : items = []
      · subst empty
        rw [runsOf_nil]
        exact .pure ⟨by simpa using total, runsOf_nil _⟩
      have nonempty := List.length_pos_iff.mpr empty
      rw [mergePairsM_runsOf positive precedes empty]
      refine (yields_mergeM precedes _ _).bind fun merged length => ?_
      refine (inductionHypothesis (items.drop (width + width)).length
        (by rw [List.length_drop]; omega) _ rfl).bind fun rest both => .pure ?_
      obtain ⟨restLength, restRuns⟩ := both
      rw [List.length_take, List.length_take, List.length_drop] at length
      rw [List.length_drop] at restLength
      refine ⟨by rw [List.flatten_cons, List.length_append]; omega, ?_⟩
      by_cases whole : 2 * width ≤ items.length
      · rw [List.flatten_cons, runsOf_append (by omega) (by omega), restRuns]
      · -- the second run is short, so it is the last one
        have nothing : rest.flatten = [] := List.length_eq_zero_iff.mp (by omega)
        have mergedSome : merged ≠ [] := List.length_pos_iff.mp (by omega)
        rw [nothing, runsOf_nil] at restRuns
        rw [← restRuns, List.flatten_singleton,
          runsOf_of_length_le (by omega) mergedSome (by omega)]

theorem yields_mergeRunsM [LawfulMonad n] (precedes : α → α → n Bool) (count : Nat)
    (runs : List (List α)) :
    Yields (fun sorted => sorted.length = runs.flatten.length)
      (mergeRunsM precedes count runs) := by
  induction count using Nat.strong_induction_on generalizing runs with
  | _ count inductionHypothesis =>
      rw [mergeRunsM]
      split
      next several =>
        refine (yields_mergePairsM_flatten precedes runs).bind fun merged length => ?_
        rw [← length]
        exact inductionHypothesis _ (by omega) merged
      next => exact .pure rfl

end Records

namespace Guarded

/-! ## Two arrays -/

section Arrays

variable {m : Type → Type} [Monad m] {α : Type}

/-- The elements between two indexes. -/
def segment (items : List α) (first last : Nat) : List α :=
  (items.take last).drop first

/-- Overwrite the elements from an index on by those of another list between two indexes. -/
def copy (target : List α) (place : Nat) (source : List α) (first last : Nat) :
    Guarded m (List α) := do
  let count ← minus last first
  let moved ← range source first last
  let _ ← range target place (place + count)
  return target.take place ++ moved ++ target.drop (place + count)

/-- Merge the elements from `first` up to `middle` with those from `second` up to `stop` into
another list, from `place` on. -/
def mergeInto (precedes : α → α → Guarded m Bool) (source : List α) (middle stop first second
    place : Nat) (target : List α) : Guarded m (List α) :=
  if first < middle ∧ second < stop then do
    let later ← element source second
    let earlier ← element source first
    if ← precedes later earlier then
      let target ← store target place later
      mergeInto precedes source middle stop first (second + 1) (place + 1) target
    else
      let target ← store target place earlier
      mergeInto precedes source middle stop (first + 1) second (place + 1) target
  else do
    let rest ← minus middle first
    let target ← copy target place source first middle
    copy target (place + rest) source second stop
termination_by (middle - first) + (stop - second)

/-- Merge neighbouring runs of `2 ^ level` elements, from `start` on. -/
def mergePass (precedes : α → α → Guarded m Bool) (level : Nat) (source : List α) (start : Nat)
    (target : List α) : Guarded m (List α) :=
  if start < source.length then do
    let middle := min (start + Nat.pow 2 level) source.length
    let stop := min (start + 2 * Nat.pow 2 level) source.length
    let target ← mergeInto precedes source middle stop start middle start target
    mergePass precedes level source stop target
  else return target
termination_by source.length - start
decreasing_by
  have positive : 0 < Nat.pow 2 level := Nat.two_pow_pos level
  omega

/-- Passes until one run is left.  After each the two lists change places. -/
def mergePasses (precedes : α → α → Guarded m Bool) (count level : Nat)
    (source target : List α) : Guarded m (List α) :=
  if Nat.pow 2 level < count then do
    let merged ← mergePass precedes level source 0 target
    mergePasses precedes count (level + 1) merged source
  else return source
termination_by count - Nat.pow 2 level
decreasing_by
  have doubled : Nat.pow 2 (level + 1) = Nat.pow 2 level * 2 := rfl
  have positive : 0 < Nat.pow 2 level := Nat.two_pow_pos level
  omega

/-- Sort a list by a question. -/
def mergeSort (precedes : α → α → Guarded m Bool) (items : List α) : Guarded m (List α) :=
  if items.length < 2 then return items
  else do
    let sorted ← mergePasses precedes items.length 0 items items
    copy items 0 sorted 0 items.length

theorem length_segment {items : List α} {first last : Nat} (inside : last ≤ items.length) :
    (segment items first last).length = last - first := by
  rw [segment, List.length_drop, List.length_take, Nat.min_eq_left inside]

theorem segment_of_le (items : List α) {first last : Nat} (past : last ≤ first) :
    segment items first last = [] :=
  List.drop_eq_nil_of_le (by rw [List.length_take]; omega)

theorem segment_cons {items : List α} {first last : Nat} {item : α}
    (present : items[first]? = some item) (before : first < last) :
    segment items first last = item :: segment items (first + 1) last := by
  obtain ⟨inside, rfl⟩ := List.getElem?_eq_some_iff.mp present
  have insideTaken : first < (items.take last).length := by
    rw [List.length_take]
    omega
  rw [segment, List.drop_eq_getElem_cons insideTaken, List.getElem_take, segment]

theorem copy_eq [LawfulMonad m] {source target : List α} {place first last : Nat}
    (ordered : first ≤ last) (inside : last ≤ source.length)
    (fits : place + (last - first) ≤ target.length) :
    copy target place source first last =
      (pure (target.take place ++ segment source first last ++
        target.drop (place + (last - first))) : Guarded m (List α)) := by
  rw [copy, minus_eq ordered, pure_bind, range_eq ordered inside, pure_bind,
    range_eq (Nat.le_add_right _ _) fits, pure_bind]
  rfl

section MergeInto

variable [LawfulMonad m] (precedes : α → α → Guarded m Bool) {source target : List α}
  {middle stop first second place : Nat}

/-- When one run is used up, what is left of the other is copied. -/
theorem mergeInto_of_empty (firstRun : first ≤ middle) (secondRun : second ≤ stop)
    (firstInside : middle ≤ source.length) (secondInside : stop ≤ source.length)
    (same : target.length = source.length)
    (placed : place + (middle - first) + (stop - second) = stop)
    (empty : ¬(first < middle ∧ second < stop)) :
    mergeInto precedes source middle stop first second place target =
      (pure (target.take place ++ (segment source first middle ++ segment source second stop) ++
        target.drop stop) : Guarded m (List α)) := by
  have front : (target.take place ++ segment source first middle).length =
      place + (middle - first) := by
    rw [List.length_append, List.length_take, length_segment firstInside]
    omega
  have total : (target.take place ++ segment source first middle ++
      target.drop (place + (middle - first))).length = target.length := by
    rw [List.length_append, front, List.length_drop]
    omega
  have behind : (target.take place ++ segment source first middle ++
      target.drop (place + (middle - first))).drop stop = target.drop stop := by
    rw [List.drop_append, List.drop_eq_nil_of_le (by omega), List.nil_append, front,
      List.drop_drop]
    congr 1
    omega
  rw [mergeInto, if_neg empty, minus_eq firstRun, pure_bind,
    copy_eq firstRun firstInside (by omega), pure_bind, copy_eq secondRun secondInside (by omega),
    List.take_left' front, placed, behind, ← List.append_assoc]

theorem mergeInto_eq (firstRun : first ≤ middle) (secondRun : second ≤ stop)
    (firstInside : middle ≤ source.length) (secondInside : stop ≤ source.length)
    (same : target.length = source.length)
    (placed : place + (middle - first) + (stop - second) = stop) :
    mergeInto precedes source middle stop first second place target = (do
      let merged ← Records.mergeM precedes (segment source first middle)
        (segment source second stop)
      return target.take place ++ merged ++ target.drop stop) := by
  induction remaining : (middle - first) + (stop - second)
    generalizing first second place target with
  | zero =>
      rw [mergeInto_of_empty precedes firstRun secondRun firstInside secondInside same placed
        (by omega), Records.mergeM_of_nil (.inl (segment_of_le _ (by omega))), pure_bind]
  | succ remaining inductionHypothesis =>
      by_cases both : first < middle ∧ second < stop
      · have earlier := List.getElem?_eq_getElem (by omega : first < source.length)
        have later := List.getElem?_eq_getElem (by omega : second < source.length)
        have stored : ∀ item, (target.set place item).length = source.length :=
          fun item => by rw [List.length_set, same]
        have grown : ∀ item, (target.set place item).take (place + 1) =
            target.take place ++ [item] := by
          intro item
          rw [List.take_succ_eq_append_getElem (by rw [List.length_set]; omega),
            List.take_set_of_le (Nat.le_refl _), List.getElem_set_self]
        have behind : ∀ item, (target.set place item).drop stop = target.drop stop :=
          fun item => List.drop_set_of_lt (by omega)
        rw [mergeInto, if_pos both, element_eq later, pure_bind, element_eq earlier, pure_bind,
          segment_cons earlier both.1, segment_cons later both.2, Records.mergeM, bind_assoc]
        refine bind_congr fun answer => ?_
        cases answer with
        | true =>
            rw [if_pos rfl, if_pos rfl, store_eq (by omega), pure_bind,
              inductionHypothesis firstRun (by omega) (stored _) (by omega) (by omega),
              ← segment_cons earlier both.1, bind_assoc]
            refine bind_congr fun merged => ?_
            rw [pure_bind, grown, behind, List.append_assoc _ [_] merged, List.singleton_append]
        | false =>
            rw [if_neg Bool.false_ne_true, if_neg Bool.false_ne_true, store_eq (by omega),
              pure_bind, inductionHypothesis (by omega) secondRun (stored _) (by omega) (by omega),
              ← segment_cons later both.2, bind_assoc]
            refine bind_congr fun merged => ?_
            rw [pure_bind, grown, behind, List.append_assoc _ [_] merged, List.singleton_append]
      · have empty : segment source first middle = [] ∨ segment source second stop = [] := by
          rcases Decidable.not_and_iff_or_not.mp both with used | used
          · exact .inl (segment_of_le _ (Nat.le_of_not_lt used))
          · exact .inr (segment_of_le _ (Nat.le_of_not_lt used))
        rw [mergeInto_of_empty precedes firstRun secondRun firstInside secondInside same placed
          both, Records.mergeM_of_nil empty, pure_bind]

end MergeInto

open Records

/-- The second of two neighbouring runs, which may be short or missing. -/
theorem segment_second (items : List α) (start width : Nat) :
    segment items (min (start + width) items.length) (min (start + 2 * width) items.length) =
      ((items.drop start).drop width).take width := by
  rw [List.drop_drop]
  by_cases partner : start + width ≤ items.length
  · rw [segment, Nat.min_eq_left partner, ← drop_take_min]
    congr 2
    omega
  · rw [segment_of_le _ (by omega), List.drop_eq_nil_of_le (by omega), List.take_nil]

/-- What is behind both of them. -/
theorem drop_min_two_mul (items : List α) (start width : Nat) :
    items.drop (min (start + 2 * width) items.length) =
      (items.drop start).drop (width + width) := by
  rw [List.drop_drop]
  by_cases whole : start + 2 * width ≤ items.length
  · congr 1
    omega
  · rw [List.drop_eq_nil_of_le (by omega), List.drop_eq_nil_of_le (by omega)]

/-- One pass merges the runs from `start` on, two by two. -/
theorem mergePass_eq [LawfulMonad m] (precedes : α → α → Guarded m Bool) (level : Nat)
    {source target : List α} {start : Nat} (begun : start ≤ source.length)
    (same : target.length = source.length) :
    mergePass precedes level source start target = (do
      let merged ← mergePairsM precedes (runsOf (Nat.pow 2 level) (source.drop start))
      return target.take start ++ merged.flatten) := by
  have positive : 0 < Nat.pow 2 level := Nat.two_pow_pos level
  induction remaining : source.length - start using Nat.strong_induction_on
    generalizing start target with
  | _ remaining inductionHypothesis =>
      rw [mergePass]
      by_cases ended : source.length ≤ start
      · rw [if_neg (by omega), List.drop_eq_nil_of_le ended, runsOf_nil,
          List.take_of_length_le (by omega)]
        simp [mergePairsM]
      have rest : source.drop start ≠ [] := by
        rw [Ne, List.drop_eq_nil_iff]
        exact ended
      rw [if_pos (by omega)]
      dsimp only
      rw [mergeInto_eq precedes (by omega) (by omega) (by omega) (by omega) same (by omega),
        segment, drop_take_min, segment_second, mergePairsM_runsOf positive precedes rest,
        bind_assoc, bind_assoc]
      -- That the next pair of runs begins where this one ends is known of the merged elements only
      -- by their number, so the rest of the pass is compared for results of that length.
      refine (yields_mergeM precedes _ _).next_eq fun merged length => ?_
      simp only [List.length_take, List.length_drop] at length
      have front : (target.take start ++ merged).length =
          min (start + 2 * Nat.pow 2 level) source.length := by
        rw [List.length_append, List.length_take]
        omega
      have filled : (target.take start ++ merged ++
          target.drop (min (start + 2 * Nat.pow 2 level) source.length)).length =
            source.length := by
        rw [List.length_append, front, List.length_drop]
        omega
      rw [pure_bind, inductionHypothesis _ (by omega) (by omega) filled rfl, drop_min_two_mul,
        List.take_left' front, bind_assoc]
      refine bind_congr fun others => ?_
      rw [pure_bind, List.flatten_cons, List.append_assoc]

/-- All passes come to merging the runs until one is left. -/
theorem mergePasses_eq [LawfulMonad m] (precedes : α → α → Guarded m Bool) {level count : Nat}
    {source target : List α} (length : source.length = count) (same : target.length = count) :
    mergePasses precedes count level source target =
      mergeRunsM precedes ((count + Nat.pow 2 level - 1) / Nat.pow 2 level)
        (runsOf (Nat.pow 2 level) source) := by
  induction remaining : count - Nat.pow 2 level using Nat.strong_induction_on
    generalizing level source target with
  | _ remaining inductionHypothesis =>
      have positive : 0 < Nat.pow 2 level := Nat.two_pow_pos level
      have doubled : Nat.pow 2 (level + 1) = 2 * Nat.pow 2 level := Nat.mul_comm _ _
      rw [mergePasses, mergeRunsM]
      by_cases several : Nat.pow 2 level < count
      · have many : 1 < (count + Nat.pow 2 level - 1) / Nat.pow 2 level :=
          (Nat.le_div_iff_mul_le positive).mpr (by omega)
        have halved : (count + Nat.pow 2 (level + 1) - 1) / Nat.pow 2 (level + 1) =
            ((count + Nat.pow 2 level - 1) / Nat.pow 2 level + 1) / 2 := by
          rw [← Nat.add_div_right _ positive, Nat.div_div_eq_div_mul, doubled,
            Nat.mul_comm 2 (Nat.pow 2 level)]
          congr 1
          omega
        rw [if_pos several, if_pos many, mergePass_eq precedes level (Nat.zero_le _) (by omega),
          List.drop_zero, bind_assoc]
        refine (yields_mergePairsM_runsOf positive precedes source).next_eq fun merged both => ?_
        obtain ⟨total, runs⟩ := both
        rw [pure_bind, List.take_zero, List.nil_append,
          inductionHypothesis _ (by omega) (by omega) length rfl, halved, doubled, runs]
      · have few : ¬1 < (count + Nat.pow 2 level - 1) / Nat.pow 2 level := by
          intro many
          have covered := (Nat.le_div_iff_mul_le positive).mp many
          omega
        rw [if_neg several, if_neg few, flatten_runsOf positive]

/-- The merge sort of two arrays is the merge sort of lists. -/
theorem mergeSort_eq [LawfulMonad m] (precedes : α → α → Guarded m Bool) (items : List α) :
    mergeSort precedes items = mergeSortM precedes items := by
  unfold mergeSort mergeSortM
  split
  next short =>
    rw [mergeRunsM, if_neg (by omega), ← runsOf_one, flatten_runsOf Nat.one_pos]
  next long =>
    have single : Nat.pow 2 0 = 1 := rfl
    rw [mergePasses_eq precedes rfl rfl, single, Nat.add_sub_cancel, Nat.div_one, runsOf_one,
      ← bind_pure (mergeRunsM precedes _ _)]
    rw [bind_assoc]
    refine (yields_mergeRunsM precedes _ _).next_eq fun sorted total => ?_
    rw [← runsOf_one, flatten_runsOf Nat.one_pos] at total
    rw [pure_bind, copy_eq (Nat.zero_le _) (by omega) (by omega), segment, ← total,
      List.take_length, Nat.sub_zero, Nat.zero_add, total, List.drop_length, List.take_zero,
      List.nil_append, List.append_nil]
    rfl

end Arrays

/-! ## Sorting numbers instead of records -/

section Numbers

open Records

variable {m : Type → Type} [Monad m] [LawfulMonad m] {α β : Type} (place : α → β)
  (precedes : β → β → m Bool)

theorem map_mergeM_of_nil {earlier later : List α} (empty : earlier = [] ∨ later = []) :
    (List.map place <$> mergeM (fun left right => liftM (precedes (place left) (place right)))
      earlier later : Guarded m (List β)) =
        liftM (mergeM precedes (earlier.map place) (later.map place)) := by
  have emptyMap : earlier.map place = [] ∨ later.map place = [] :=
    empty.imp (fun nil => by rw [nil, List.map_nil]) fun nil => by rw [nil, List.map_nil]
  rw [mergeM_of_nil empty, mergeM_of_nil emptyMap, map_pure, liftM_pure, List.map_append]

/-- Merging numbers of elements is merging the elements. -/
theorem map_mergeM (earlier later : List α) :
    (List.map place <$> mergeM (fun left right => liftM (precedes (place left) (place right)))
      earlier later : Guarded m (List β)) =
        liftM (mergeM precedes (earlier.map place) (later.map place)) := by
  induction total : earlier.length + later.length using Nat.strong_induction_on
    generalizing earlier later with
  | _ total inductionHypothesis =>
      cases earlier with
      | nil => exact map_mergeM_of_nil place precedes (.inl rfl)
      | cons first earlier =>
          cases later with
          | nil => exact map_mergeM_of_nil place precedes (.inr rfl)
          | cons second later =>
              simp only [List.length_cons] at total
              have onward := inductionHypothesis _ (by simp only [List.length_cons]; omega)
                (first :: earlier) later rfl
              have onward' := inductionHypothesis _ (by simp only [List.length_cons]; omega)
                earlier (second :: later) rfl
              rw [List.map_cons] at onward onward'
              rw [List.map_cons, List.map_cons, mergeM, mergeM, map_bind, liftM_bind]
              refine bind_congr fun answer => ?_
              cases answer with
              | true =>
                  simp only [if_true, map_bind, map_pure, liftM_bind, liftM_pure, ← onward,
                    bind_map_left, List.map_cons]
              | false =>
                  simp only [Bool.false_eq_true, if_false, map_bind, map_pure, liftM_bind,
                    liftM_pure, ← onward', bind_map_left, List.map_cons]

theorem map_mergePairsM (runs : List (List α)) :
    (List.map (List.map place) <$>
      mergePairsM (fun left right => liftM (precedes (place left) (place right))) runs :
        Guarded m (List (List β))) =
        liftM (mergePairsM precedes (runs.map (List.map place))) := by
  induction runs using mergePairsM.induct with
  | case1 first second rest inductionHypothesis =>
      simp only [mergePairsM, List.map_cons, map_bind, map_pure, liftM_bind, liftM_pure,
        ← map_mergeM, ← inductionHypothesis, bind_map_left]
  | case2 runs notPair =>
      cases runs with
      | nil => simp [mergePairsM]
      | cons first rest =>
          cases rest with
          | nil => simp [mergePairsM]
          | cons second rest => exact absurd rfl (notPair first second rest)

theorem map_mergeRunsM (count : Nat) (runs : List (List α)) :
    (List.map place <$>
      mergeRunsM (fun left right => liftM (precedes (place left) (place right))) count runs :
        Guarded m (List β)) =
        liftM (mergeRunsM precedes count (runs.map (List.map place))) := by
  induction count using Nat.strong_induction_on generalizing runs with
  | _ count inductionHypothesis =>
      rw [mergeRunsM, mergeRunsM]
      split
      next several =>
        simp only [map_bind, liftM_bind, ← map_mergePairsM, bind_map_left]
        exact bind_congr fun merged => inductionHypothesis _ (by omega) merged
      next => rw [map_pure, liftM_pure, List.map_flatten]

theorem map_mergeSortM (items : List α) :
    (List.map place <$>
      mergeSortM (fun left right => liftM (precedes (place left) (place right))) items :
        Guarded m (List β)) =
        liftM (mergeSortM precedes (items.map place)) := by
  rw [mergeSortM, map_mergeRunsM, mergeSortM, List.length_map, List.map_map, List.map_map]
  rfl

end Numbers

/-! ## Sorting the records of an array -/

section Heaps

variable {σ : Signature}

/-- Ask a question about the leading elements of two records, by their numbers. -/
def askAt (question : Value → Value → Action σ Bool) (step : Nat) (items : List Value)
    {count : Nat} (left right : Fin count) : Guarded (Action σ) Bool := do
  let leftLeading ← element items (left * step)
  let rightLeading ← element items (right * step)
  liftM (question leftLeading rightLeading)

/-- The items with their records sorted, and those after the last whole record. -/
def sortRecords (question : Value → Value → Action σ Bool) (step count : Nat)
    (items : List Value) : Guarded (Action σ) (List Value) := do
  let order ← mergeSort (askAt question step items) (List.finRange count)
  let records ← order.mapM fun record : Fin count =>
    range items (record * step) ((record + 1) * step)
  let rest ← range items (count * step) items.length
  return records.flatten ++ rest

/-- Sort the records of an array or a program. -/
def sortItems (call : Caller σ) (sequence : Value) (step : Nat) (comparator : Option Value) :
    Guarded (Action σ) Unit :=
  fun heap =>
    match heap.items? sequence with
    | none => .ok (.ok (.ok ()), heap)
    | some items => do
        let step := max step 1
        let detached := heap.setChildren sequence []
        let question := match comparator.filter detached.isExecutable with
          | some function => precedesBy call function
          | none => precedesInOrder
        let (outcome, after) ← sortRecords question step (items.length / step) items detached
        match outcome with
        | .ok (.ok sorted) => return (.ok (.ok ()), after.restoreItems sequence sorted)
        | .ok (.error misstep) => return (.ok (.error misstep), after)
        | .error fault => return (.error fault, after.restoreItems sequence items)

/-- The record of a number. -/
def recordAt (step : Nat) (items : List Value) {count : Nat} (record : Fin count) : List Value :=
  segment items (record * step) ((record + 1) * step)

variable {step count : Nat} {items : List Value}

/-- A whole record stands within the list. -/
theorem record_le (whole : count * step ≤ items.length) (record : Fin count) :
    (record + 1) * step ≤ items.length :=
  Nat.le_trans (Nat.mul_le_mul_right step record.isLt) whole

theorem recordAt_eq (step : Nat) (items : List Value) (record : Fin count) :
    recordAt step items record = (items.drop (record * step)).take step := by
  rw [recordAt, segment, List.drop_take, Nat.succ_mul, Nat.add_sub_cancel_left]

/-- The records, cut off one by one and by their numbers. -/
theorem cutRecords_eq (step count : Nat) (items : List Value) :
    Records.cutRecords step count items =
      ((List.finRange count).map (recordAt step items), items.drop (count * step)) := by
  induction count generalizing items with
  | zero => simp [Records.cutRecords]
  | succ count inductionHypothesis =>
      have head : recordAt step items (0 : Fin (count + 1)) = items.take step := by
        rw [recordAt_eq, Fin.val_zero, Nat.zero_mul, List.drop_zero]
      have others : (recordAt step items ∘ Fin.succ : Fin count → List Value) =
          recordAt step (items.drop step) := by
        funext record
        rw [Function.comp, recordAt_eq, recordAt_eq, Fin.val_succ, List.drop_drop, Nat.succ_mul,
          Nat.add_comm]
      rw [Records.cutRecords, inductionHypothesis, List.finRange_succ, List.map_cons, List.map_map,
        List.drop_drop, head, others, Nat.succ_mul, Nat.add_comm step]

theorem askAt_eq (positive : 0 < step) (whole : count * step ≤ items.length)
    (question : Value → Value → Action σ Bool) :
    (askAt question step items : Fin count → Fin count → Guarded (Action σ) Bool) =
      fun left right => liftM
        (askLeading question (recordAt step items left) (recordAt step items right)) := by
  have leading : ∀ record : Fin count,
      items[record * step]? = some ((recordAt step items record).headD .null) := by
    intro record
    have inside : record * step < items.length := by
      have within := record_le whole record
      rw [Nat.succ_mul] at within
      omega
    obtain ⟨width, rfl⟩ := Nat.exists_eq_add_of_lt positive
    rw [recordAt_eq, List.drop_eq_getElem_cons inside, List.take_succ_cons, List.headD_cons,
      List.getElem?_eq_getElem inside]
  funext left right
  rw [askAt, element_eq (leading left), pure_bind, element_eq (leading right), pure_bind]
  rfl

/-- Sorting the numbers comes to sorting the records. -/
theorem sortRecords_eq (positive : 0 < step) (whole : count * step ≤ items.length)
    (question : Value → Value → Action σ Bool) :
    sortRecords question step count items = (do
      let sorted ← liftM (Records.mergeSortM (m := Action σ) (askLeading question)
        (Records.cutRecords step count items).1)
      return sorted.flatten ++ (Records.cutRecords step count items).2) := by
  have cutting : (fun record : Fin count =>
      (range items (record * step) ((record + 1) * step) : Guarded (Action σ) (List Value))) =
        fun record => pure (recordAt step items record) :=
    funext fun record =>
      range_eq (Nat.mul_le_mul_right step (Nat.le_succ _)) (record_le whole record)
  have rest : (range items (count * step) items.length : Guarded (Action σ) (List Value)) =
      pure (items.drop (count * step)) := by
    rw [range_eq whole (Nat.le_refl _), List.take_length]
  unfold sortRecords
  rw [cutting, mergeSort_eq, askAt_eq positive whole, cutRecords_eq, ← map_mergeSortM,
    bind_map_left]
  refine bind_congr fun order => ?_
  rw [List.mapM_pure, pure_bind, rest, pure_bind]

/-- Running a lifted action. -/
theorem run_liftM {α : Type} (action : Action σ α) (heap : Heap σ) :
    (liftM action : Guarded (Action σ) α) heap = (do
      let (outcome, after) ← action heap
      return (outcome.map .ok, after)) := by
  change (action heap >>= fun ran => _) = action heap >>= fun ran => _
  refine bind_congr fun ran => ?_
  obtain ⟨outcome, after⟩ := ran
  cases outcome <;> rfl

/-- Running a lifted action and a function on its result. -/
theorem run_liftM_bind_pure {α β : Type} (action : Action σ α) (function : α → β)
    (heap : Heap σ) :
    ((liftM action : Guarded (Action σ) α) >>= fun result => pure (function result)) heap = (do
      let (outcome, after) ← action heap
      return (outcome.map fun result => .ok (function result), after)) := by
  change (action heap >>= fun ran => _) >>= (fun ran => _) = action heap >>= fun ran => _
  rw [bind_assoc]
  refine bind_congr fun ran => ?_
  obtain ⟨outcome, after⟩ := ran
  cases outcome <;> rfl

/-- Sorting an array never missteps, whatever the comparator does. -/
theorem sortItems_eq (call : Caller σ) (sequence : Value) (step : Nat)
    (comparator : Option Value) :
    sortItems call sequence step comparator =
      liftM (CountedHeap.sortItems call sequence step comparator) := by
  funext heap
  rw [run_liftM]
  unfold sortItems CountedHeap.sortItems
  cases heap.items? sequence with
  | none => rfl
  | some items =>
      have positive : 0 < max step 1 := by omega
      have whole := Nat.div_mul_le_self items.length (max step 1)
      dsimp only
      rw [sortRecords_eq positive whole, run_liftM_bind_pure, bind_assoc, bind_assoc]
      refine bind_congr fun ran => ?_
      obtain ⟨outcome, after⟩ := ran
      cases outcome <;> rfl

end Heaps

end Guarded

end CountedHeap
