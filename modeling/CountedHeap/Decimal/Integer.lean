/-!
Contract: decimal text of whole numbers, and the order-preserving squeeze into 64 bits.

Owns:
- the digits of a natural number and the text of an integer;
- the value of a run of digits, as an exact natural number.

Does not own: where a run of digits starts in a longer text.
-/

namespace CountedHeap.Decimal

/-- Decimal text of a natural number, without leading zeros. -/
def naturalText (number : Nat) : String :=
  String.ofList (Nat.toDigits 10 number)

/-- Decimal text of an integer: a minus sign in front of the magnitude if negative. -/
def integerText (number : Int) : String :=
  if number < 0 then "-" ++ naturalText number.natAbs else naturalText number.natAbs

/-- The value of one ASCII digit. -/
def digitValue (digit : Char) : Nat :=
  digit.toNat - '0'.toNat

/-- The value of a run of digits, most significant first. -/
def digitsValue (digits : List Char) : Nat :=
  digits.foldl (fun value digit => value * 10 + digitValue digit) 0

private theorem foldl_digits (digits : List Char) (initial : Nat) :
    digits.foldl (fun value digit => value * 10 + digitValue digit) initial =
      Nat.ofDigitChars 10 digits initial := by
  induction digits generalizing initial with
  | nil => rfl
  | cons head tail inductionHypothesis =>
      rw [List.foldl_cons, inductionHypothesis, Nat.ofDigitChars_cons]
      simp only [digitValue, Nat.mul_comm]

/-- Writing a number and reading its digits gives the number back. -/
@[simp] theorem digitsValue_toDigits (number : Nat) :
    digitsValue (Nat.toDigits 10 number) = number := by
  rw [digitsValue, foldl_digits, Nat.ofDigitChars_toDigits (by decide) (by decide)]

end CountedHeap.Decimal
