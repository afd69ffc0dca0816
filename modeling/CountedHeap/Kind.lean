/-!
Contract: the closed set of payload kinds and the questions that depend on the kind alone.

Owns: the kinds, their names and their classes (container, numeric, executable).
-/

namespace CountedHeap

/-- What a cell holds. -/
inductive Kind where
  | null
  | text
  | int
  | real
  | array
  | hash
  | exec
  | file
  | program
deriving DecidableEq, Repr

namespace Kind

/-- Arrays, hashes and programs own a sequence of references. -/
def isMulti : Kind → Bool
  | .array | .hash | .program => true
  | _ => false

/-- Integers and reals compare as numbers. -/
def isNumeric : Kind → Bool
  | .int | .real => true
  | _ => false

/-- Native callables and programs can be called. -/
def isExecutable : Kind → Bool
  | .exec | .program => true
  | _ => false

/-- Arrays and programs hold a list of items. -/
def isSequence : Kind → Bool
  | .array | .program => true
  | _ => false

/-- The name shown to users. -/
def name : Kind → String
  | .null => "null"
  | .text => "string"
  | .int => "int"
  | .real => "real"
  | .array => "array"
  | .hash => "hash"
  | .exec => "exec"
  | .file => "file"
  | .program => "program"

end Kind

end CountedHeap
