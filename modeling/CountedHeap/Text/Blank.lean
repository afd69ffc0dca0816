/-!
Contract: blank characters, by the Unicode property `White_Space`.

Owns: the table of the property, and dropping the blanks at the start of a text.
-/

namespace CountedHeap.Text

/-- The ranges of `White_Space`, as first and last code point. -/
def blankRanges : List (Nat × Nat) :=
  [(0x09, 0x0D), (0x20, 0x20), (0x85, 0x85), (0xA0, 0xA0), (0x1680, 0x1680),
    (0x2000, 0x200A), (0x2028, 0x2029), (0x202F, 0x202F), (0x205F, 0x205F),
    (0x3000, 0x3000)]

/-- Whether a character is blank. -/
def isBlank (character : Char) : Bool :=
  blankRanges.any fun (first, last) =>
    decide (first ≤ character.toNat) && decide (character.toNat ≤ last)

/-- The text without the blanks at its start. -/
def trimStart (characters : List Char) : List Char :=
  characters.dropWhile isBlank

/-- Digits, signs and points are not blank, so a number is never trimmed. -/
theorem isBlank_eq_false_of_isDigit {character : Char} (digit : character.isDigit = true) :
    isBlank character = false := by
  simp only [Char.isDigit, Bool.and_eq_true, decide_eq_true_eq] at digit
  have low : 48 ≤ character.toNat := digit.1
  have high : character.toNat ≤ 57 := digit.2
  simp [isBlank, blankRanges]
  omega

end CountedHeap.Text
