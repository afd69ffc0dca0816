import CountedHeap.Cell
import CountedHeap.Decimal.Layout

/-!
Contract: the notation in which handles and cells are shown to a person who inspects a heap.

It tells apart what the text of a value does not: handles are written with their age, and
payloads with their structure.

Owns: the notation of handles, payloads and cells.
-/

namespace CountedHeap

/-- A handle with its place and its age. -/
def Value.notationText : Value → String
  | .null => "Null"
  | .cell id =>
      "Cell(" ++ Decimal.naturalText id.index ++ "v" ++ Decimal.naturalText id.generation ++ ")"
  | .scratch id =>
      "Scratch(" ++ Decimal.naturalText id.index ++ "s" ++ Decimal.naturalText id.serial ++ ")"

namespace Inspection

/-- A list in brackets. -/
def bracketed (items : List String) : String :=
  "[" ++ ", ".intercalate items ++ "]"

/-- A record: its name, and its fields in braces. -/
def record (name : String) (fields : List (String × String)) : String :=
  name ++ " \x7b " ++ ", ".intercalate (fields.map fun field => field.1 ++ ": " ++ field.2) ++
    " \x7d"

/-- The double quote, the backslash and control characters are written by escapes. -/
def escaped (character : Char) : List Char :=
  if character = '"' then ['\\', '"']
  else if character = '\\' then ['\\', '\\']
  else if character = '\n' then ['\\', 'n']
  else if character = '\r' then ['\\', 'r']
  else if character = '\t' then ['\\', 't']
  else if character = '\x00' then ['\\', '0']
  else if character.toNat < 0x20 ∨ 0x7f ≤ character.toNat ∧ character.toNat < 0xa0 then
    '\\' :: 'u' :: '\x7b' :: Nat.toDigits 16 character.toNat ++ ['\x7d']
  else [character]

/-- A string in double quotes. -/
def quoted (content : String) : String :=
  "\"" ++ String.ofList (content.toList.flatMap escaped) ++ "\""

/-- Reals are inspected positionally from `1e-4` up to, but not including, `1e16`. -/
def realLayout : Decimal.Layout := ⟨-4, 16⟩

/-- A real, always with a fraction or an exponent. -/
def realNotation (content : Float) : String :=
  match Decimal.unpack content with
  | .nan => "NaN"
  | .infinite negative => if negative then "-inf" else "inf"
  | .finite negative mantissa exponent =>
      (if negative then "-" else "") ++
        if mantissa = 0 then "0.0" else realLayout.write (Decimal.shortest mantissa exponent)

/-- A native shows its shape only. -/
def nativeNotation {σ : Signature} : Native σ → String
  | .plain _ => "Native::Plain"
  | .closure _ => "Native::Closure"

end Inspection

open Inspection

variable {σ : Signature}

/-- A payload with its structure. -/
def Payload.notationText : Payload σ → String
  | .null => "Null"
  | .text content => "Str(" ++ quoted content ++ ")"
  | .int content => "Int(" ++ Decimal.integerText content.toInt ++ ")"
  | .real content => "Real(" ++ realNotation content ++ ")"
  | .array items => "Array(" ++ bracketed (items.map Value.notationText) ++ ")"
  | .hash table =>
      "Hash(" ++
        record "HashTable"
          [("buckets", bracketed (table.buckets.map Value.notationText)),
            ("pairs", Decimal.naturalText table.pairs)] ++ ")"
  | .exec native => "Exec(" ++ nativeNotation native ++ ")"
  | .file path =>
      "File(" ++ record "FileHandle" [("path", quoted path), ("file", "None")] ++ ")"
  | .program items => "Program(" ++ bracketed (items.map Value.notationText) ++ ")"

/-- A cell with its count and its payload. -/
def Cell.notationText (cell : Cell σ) : String :=
  record "ValueCell"
    [("refs", Decimal.naturalText cell.refs), ("payload", cell.payload.notationText)]

end CountedHeap
