/-!
Contract: names of native callables.

A heap stores callables, so a cell cannot hold a function on heaps.  It holds a name; what
the name does is said by the core natives of this library and by the program that embeds
it.

Owns:
- the closed set of core natives, their spelling and their argument counts;
- the signature by which an embedding program adds its own names;
- the two shapes of a callable, plain and closure.
-/

namespace CountedHeap

/-- The callables that come with the heap. -/
inductive CoreNative where
  | len
  | text
  | int
  | push
  | pop
  | sort
  | reverse
  | keys
  | values
  | exists
  | sget
  | sset
  | split
  | join
  | call
  | sweep
deriving DecidableEq, Repr

namespace CoreNative

/-- The name under which the native is registered and by which its faults are reported. -/
def name : CoreNative → String
  | .len => "len"
  | .text => "text"
  | .int => "int"
  | .push => "push"
  | .pop => "pop"
  | .sort => "sort"
  | .reverse => "reverse"
  | .keys => "keys"
  | .values => "values"
  | .exists => "exists"
  | .sget => "sget"
  | .sset => "sset"
  | .split => "split"
  | .join => "join"
  | .call => "call"
  | .sweep => "sweep"

/-- The argument count that an arity fault names.  `sort` and `sweep` take one argument
more or less than this, `call` any number above it. -/
def arity : CoreNative → Nat
  | .len | .text | .int | .pop | .sort | .reverse | .keys | .values | .call | .sweep => 1
  | .push | .exists | .sget | .split | .join => 2
  | .sset => 3

/-- Every core native, in the order of registration. -/
def all : List CoreNative :=
  [.len, .text, .int, .push, .pop, .sort, .reverse, .keys, .values, .exists, .sget, .sset,
    .split, .join, .call, .sweep]

end CoreNative

/-- The names an embedding program adds: plain callables, and closures, which also receive
an auxiliary value. -/
structure Signature where
  Plain : Type
  Closure : Type

/-- A plain callable: one of the core natives or one of the host's. -/
inductive Function (σ : Signature) where
  | core (native : CoreNative)
  | host (name : σ.Plain)

/-- The content of an executable cell. -/
inductive Native (σ : Signature) where
  | plain (function : Function σ)
  | closure (name : σ.Closure)

end CountedHeap
