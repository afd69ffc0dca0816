import CountedHeap.Fault
import CountedHeap.Value

/-!
Contract: room for elements.

An element list can be asked to grow to any length that a 64-bit count can express, most of
which no machine holds.  Asking for too much ends the run.

Owns: the limit, and growing a list of references with absent values.
-/

namespace CountedHeap

/-- The longest element list for which there is room. -/
def elementLimit : Nat := Nat.pow 2 40

/-- Ask for room for `count` elements. -/
def reserve (count : Nat) : Except Exhausted Unit :=
  if count ≤ elementLimit then .ok () else .error (.storage count)

/-- Grow a list to `length` elements with absent values.  A list that is long enough is
unchanged and asks for no room. -/
def padTo (length : Nat) (items : List Value) : Except Exhausted (List Value) :=
  if length ≤ items.length then .ok items
  else if length ≤ elementLimit then
    .ok (items ++ List.replicate (length - items.length) .null)
  else .error (.storage length)

theorem padTo_of_le {length : Nat} {items : List Value} (enough : length ≤ items.length) :
    padTo length items = .ok items :=
  if_pos enough

/-- Padding appends absent values, and it succeeds exactly if the list is long enough
already or the new length is within the limit. -/
theorem padTo_eq_ok_iff {length : Nat} {items padded : List Value} :
    padTo length items = .ok padded ↔
      (length ≤ items.length ∨ length ≤ elementLimit) ∧
        padded = items ++ List.replicate (length - items.length) .null := by
  unfold padTo
  split
  next enough =>
    have nothing : length - items.length = 0 := by omega
    simp [enough, nothing, eq_comm]
  next short =>
    split
    next fits => simp [fits, eq_comm]
    next beyond => simp [short, beyond]

theorem length_padTo {length : Nat} {items padded : List Value}
    (done : padTo length items = .ok padded) :
    padded.length = max items.length length := by
  rw [(padTo_eq_ok_iff.mp done).2, List.length_append, List.length_replicate]
  omega

end CountedHeap
