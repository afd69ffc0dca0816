/-!
Contract: stable merge sort by a question that can have effects.

The order is known only through the question whether one element precedes another.  The
question may fail, and may answer differently each time; the sort still ends, and when it
is not stopped it permutes its input.

Owns:
- merging two runs, merging neighbouring runs in one pass, and passes until one run is left;
- cutting a list into whole records and what is left over.

The questions are asked from left to right within a pass, and always of the later run about
the earlier one, so equal elements keep their order.
-/

namespace CountedHeap.Records

universe u

variable {α : Type} {m : Type → Type u} [Monad m]

/-- Merge two runs.  The head of the later run goes first only if it precedes. -/
def mergeM (precedes : α → α → m Bool) : List α → List α → m (List α)
  | [], later => pure later
  | earlier, [] => pure earlier
  | first :: earlier, second :: later => do
      if ← precedes second first then
        return second :: (← mergeM precedes (first :: earlier) later)
      else
        return first :: (← mergeM precedes earlier (second :: later))
termination_by earlier later => earlier.length + later.length

/-- Merge neighbouring runs, the first with the second, the third with the fourth, and so
on.  A run without a partner stays. -/
def mergePairsM (precedes : α → α → m Bool) : List (List α) → m (List (List α))
  | first :: second :: rest => do
      let merged ← mergeM precedes first second
      return merged :: (← mergePairsM precedes rest)
  | runs => pure runs

/-- Merge `count` runs in passes until one is left.  A pass halves their number. -/
def mergeRunsM (precedes : α → α → m Bool) (count : Nat) (runs : List (List α)) :
    m (List α) :=
  if 1 < count then do
    mergeRunsM precedes ((count + 1) / 2) (← mergePairsM precedes runs)
  else
    pure runs.flatten
termination_by count
decreasing_by omega

/-- Sort a list, beginning with runs of one element. -/
def mergeSortM (precedes : α → α → m Bool) (items : List α) : m (List α) :=
  mergeRunsM precedes items.length (items.map ([·]))

/-- Cut `count` records of `step` elements off the front of a list.  The second component is
what is left over. -/
def cutRecords (step : Nat) : Nat → List α → List (List α) × List α
  | 0, items => ([], items)
  | count + 1, items =>
      let (records, rest) := cutRecords step count (items.drop step)
      (items.take step :: records, rest)

/-- Cutting into records loses nothing and changes no order. -/
theorem flatten_cutRecords (step count : Nat) (items : List α) :
    (cutRecords step count items).1.flatten ++ (cutRecords step count items).2 = items := by
  induction count generalizing items with
  | zero => simp [cutRecords]
  | succ count inductionHypothesis =>
      simp only [cutRecords, List.flatten_cons, List.append_assoc]
      rw [inductionHypothesis, List.take_append_drop]

end CountedHeap.Records
