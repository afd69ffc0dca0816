import CountedHeap.Call.Core

/-!
Contract: calling a value.

A call never fails for want of something to call: a value without a native answers the
absent value.  The callable and every argument are held while the native runs, so no sweep
can take them from it.

Owns: dispatch by the shape of a native, calls with the arguments in a list, and calls with
the arguments in an array.
-/

namespace CountedHeap

variable {σ : Signature}

namespace Native

/-- Run a native.  A plain one gets the arguments, a closure the auxiliary value as well. -/
def run (host : Host σ) (call : Caller σ) (auxiliary : Value) (arguments : List Value) :
    Native σ → Action σ Value
  | .plain (.core native) => native.run call arguments
  | .plain (.host name) => host.plain name call arguments
  | .closure name => host.closure name call auxiliary arguments

end Native

/-- Call a value, with at most `depth` calls nested. -/
def exec (host : Host σ) : Nat → Caller σ
  | 0, callable, _ => do
      match ← Action.ask fun heap => heap.target? callable with
      | none => return .null
      | some _ => Action.exhaust .callDepth
  | depth + 1, callable, arguments => do
      match ← Action.ask fun heap => heap.target? callable with
      | none => return .null
      | some (native, auxiliary) =>
          Action.holding (callable :: arguments)
            (native.run host (exec host depth) auxiliary arguments)

/-- The arguments that a value stands for: the items of an array or a program, none for the
absent handle, and otherwise the value alone. -/
def Heap.argumentsOf (heap : Heap σ) (arguments : Value) : List Value :=
  match heap.items? arguments with
  | some items => items
  | none => if arguments.isNull then [] else [arguments]

/-- Call a value with the arguments in an array. -/
def execArray (host : Host σ) (depth : Nat) (callable arguments : Value) :
    Action σ Value := do
  exec host depth callable (← Action.ask fun heap => heap.argumentsOf arguments)

end CountedHeap
