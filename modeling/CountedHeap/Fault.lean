import CountedHeap.Decimal.Integer

/-!
Contract: the two ways an operation on a heap can fail.

A `Fault` is raised by a native callable and travels to the caller; the heap survives it.
`Exhausted` ends the whole run: there is no heap to go on with.

Owns: both types and the wording of faults.
-/

namespace CountedHeap

/-- What an argument was expected to be. -/
inductive Mismatch where
  | notArray
  | notHash
  | notText
  | notExecutable
deriving DecidableEq, Repr

/-- The wording of a mismatch. -/
def Mismatch.message : Mismatch → String
  | .notArray => "Not an array"
  | .notHash => "Not a hash"
  | .notText => "Not a string"
  | .notExecutable => "Not executable"

/-- A failed native call. -/
inductive Fault where
  | arity (name : String) (expected got : Nat)
  | argument (name : String) (mismatch : Mismatch)
  | native (message : String)
deriving DecidableEq, Repr

/-- The wording of a fault. -/
def Fault.message : Fault → String
  | .arity name expected got =>
      name ++ ": expected " ++ Decimal.naturalText expected ++ " argument(s), got " ++
        Decimal.naturalText got
  | .argument name mismatch => name ++ ": " ++ mismatch.message
  | .native message => message

/-- The run cannot go on: element storage of this size cannot be had, calls are nested more
deeply than allowed, or a pair is to leave a table that counts none. -/
inductive Exhausted where
  | storage (requested : Nat)
  | callDepth
  | pairCount
deriving DecidableEq, Repr

end CountedHeap
