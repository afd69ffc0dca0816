import CountedHeap.Call.Action
import CountedHeap.Heap.Sweep
import CountedHeap.Path
import CountedHeap.Sequence.Sort
import CountedHeap.Strings

/-!
Contract: what the core natives do.

Each native takes its arguments by number and checks them before it does anything.  A wrong
number of arguments is found before a wrong argument.

Owns: the checks and the behaviour of all core natives.  The operations behind them know no
faults; they answer a miss with the absent value.
-/

namespace CountedHeap.CoreNative

variable {σ : Signature}

/-- The fault of a call with the wrong number of arguments. -/
def arityFault (native : CoreNative) (arguments : List Value) : Fault :=
  .arity native.name native.arity arguments.length

/-- Raise a fault that names the native unless the heap answers yes. -/
def expect (native : CoreNative) (mismatch : Mismatch) (condition : Heap σ → Bool) :
    Action σ Unit :=
  Action.demand condition (.argument native.name mismatch)

/-- Raise a fault unless a value is of a kind. -/
def expectKind (native : CoreNative) (mismatch : Mismatch) (kind : Kind) (value : Value) :
    Action σ Unit :=
  native.expect mismatch fun heap => decide (heap.kind value = kind)

/-- Answer a number, in a new cell. -/
def answerInt (number : Heap σ → Int64) : Action σ Value :=
  Action.step fun heap => heap.int (number heap)

/-- Sort an array in place and answer it. -/
def runSort (call : Caller σ) (array : Value) (comparator : Option Value) :
    Action σ Value := do
  sortItems call array 1 comparator
  return array

/-- Sweep by a numbered budget and answer how many cells were freed. -/
def runSweep (budget : Int64) : Action σ Value :=
  Action.step fun heap =>
    let (stats, heap) := heap.sweep (.ofInt budget.toInt)
    heap.int (Int64.ofNat stats.freed)

/-- The behaviour of every core native. -/
def run (call : Caller σ) : CoreNative → List Value → Action σ Value
  | .len, [value] => answerInt fun heap => Int64.ofNat (heap.size value)
  | .text, [value] => Action.step fun heap => heap.string (heap.text value)
  | .int, [value] => answerInt fun heap => heap.asInt value
  | .push, [array, element] => do
      push.expect .notArray fun heap => (heap.kind array).isSequence
      Action.grow fun heap => heap.pushItem array element
  | .pop, [array] => do
      pop.expectKind .notArray .array array
      Action.step fun heap => heap.popItem array
  | .sort, [array] => do
      sort.expectKind .notArray .array array
      runSort call array none
  | .sort, [array, comparator] => do
      sort.expectKind .notArray .array array
      sort.expect .notExecutable fun heap => heap.isExecutable comparator
      runSort call array (some comparator)
  | .reverse, [array] => do
      reverse.expectKind .notArray .array array
      Action.step fun heap => (array, (heap.reverseItems array).2)
  | .keys, [table] => do
      keys.expectKind .notHash .hash table
      Action.step fun heap => heap.keys table
  | .values, [table] => do
      values.expectKind .notHash .hash table
      Action.step fun heap => heap.values table
  | .exists, [table, key] => do
      CoreNative.exists.expectKind .notHash .hash table
      answerInt fun heap => if heap.hasKey table key then 1 else 0
  | .sget, [root, path] => Action.ask fun heap => heap.getPath root path
  | .sset, [root, path, value] => Action.grow fun heap => heap.setPath root path value
  | .split, [separator, characters] => do
      split.expectKind .notText .text characters
      Action.grow fun heap => heap.split separator characters
  | .join, [separator, array] => do
      join.expectKind .notArray .array array
      Action.step fun heap => heap.join separator array
  | .call, callable :: arguments => do
      CoreNative.call.expect .notExecutable fun heap => heap.isExecutable callable
      call callable arguments
  | .sweep, [] => runSweep 0
  | .sweep, [budget] => do
      runSweep (← Action.ask fun heap => heap.asInt budget)
  | native, arguments => throw (native.arityFault arguments)

end CountedHeap.CoreNative
