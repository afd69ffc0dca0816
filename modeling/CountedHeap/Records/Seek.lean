/-!
Contract: searching a sorted list of records.

A record is `step` consecutive elements and is keyed by the first of them.

Owns: bisection over whole records, and the two answers of a search.
-/

namespace CountedHeap

/-- Where a key is, or where a record with the key would be inserted to keep the order.
Both are element positions. -/
inductive Seek where
  | found (index : Nat)
  | missing (index : Nat)
deriving DecidableEq, Repr

namespace Records

/-- Bisection: the first number from `low` up to `high` of which `below` does not hold, if
`below` holds of all smaller numbers and of none above. -/
def firstNotBelow (below : Nat → Bool) (low high : Nat) : Nat :=
  if low < high then
    let middle := low + (high - low) / 2
    if below middle then firstNotBelow below (middle + 1) high
    else firstNotBelow below low middle
  else low
termination_by high - low
decreasing_by all_goals omega

/-- Bisection stays within its bounds. -/
theorem firstNotBelow_bounds (below : Nat → Bool) {low high : Nat} (ordered : low ≤ high) :
    low ≤ firstNotBelow below low high ∧ firstNotBelow below low high ≤ high := by
  fun_induction firstNotBelow below low high with
  | case1 low high less middle isBelow inductionHypothesis =>
      have bounds := inductionHypothesis (by omega)
      omega
  | case2 low high less middle notBelow inductionHypothesis =>
      have bounds := inductionHypothesis (by omega)
      omega
  | case3 low high notLess => omega

/-- Whether the leading element of a record compares as `expected` by `probe`. -/
def leads {α : Type} (items : List α) (step : Nat) (probe : α → Ordering)
    (expected : Ordering) (record : Nat) : Bool :=
  items[record * step]?.any fun element => probe element == expected

/-- Find the first record whose leading element matches, in a list of `step`-sized records
sorted by `probe`.  A step of zero counts as one; elements after the last whole record are
not looked at. -/
def seek {α : Type} (items : List α) (step : Nat) (probe : α → Ordering) : Seek :=
  let step := max step 1
  let count := items.length / step
  let record := firstNotBelow (leads items step probe .lt) 0 count
  if decide (record < count) && leads items step probe .eq record then
    .found (record * step)
  else
    .missing (record * step)

end Records

end CountedHeap
