import CountedHeap.Decimal.Integer
import CountedHeap.Decimal.Shortest

/-!
Contract: the written form of reals.

Owns:
- where positional notation ends and the form with an exponent begins;
- the text of every real, whole or not, finite or not.
-/

namespace CountedHeap.Decimal

/-- When a decimal is written positionally: its point, counted from the first digit, lies
above `lowest` and not above `highest`. -/
structure Layout where
  lowest : Int
  highest : Int
deriving DecidableEq, Repr

/-- Decimals are written positionally from `1e-5` up to, but not including, `1e16`. -/
def Layout.standard : Layout := ⟨-5, 16⟩

private def zeros (count : Int) : List Char :=
  List.replicate count.toNat '0'

/-- Write `digits * 10 ^ scale`.  A whole number keeps the fraction `.0`; a number below one
starts with `0.`; in the form with an exponent the first digit stands before the point, and
the exponent has neither plus sign nor padding. -/
def Layout.write (layout : Layout) (decimal : Scaled) : String :=
  let digits := Nat.toDigits 10 decimal.digits
  let point : Int := digits.length + decimal.scale
  if layout.lowest < point ∧ point ≤ layout.highest then
    if 0 ≤ decimal.scale then
      String.ofList (digits ++ zeros decimal.scale ++ ['.', '0'])
    else if 0 < point then
      String.ofList (digits.take point.toNat ++ '.' :: digits.drop point.toNat)
    else
      String.ofList ('0' :: '.' :: zeros (-point) ++ digits)
  else
    let fraction := match digits.drop 1 with
      | [] => []
      | rest => '.' :: rest
    String.ofList (digits.take 1 ++ fraction ++ ['e']) ++ integerText (point - 1)

/-- Whole reals below this magnitude are written as integers. -/
def wholeLimit : Nat := Nat.pow 10 15

/-- The text of a real.  A whole real below `wholeLimit` is written as the integer it is,
which gives both zeros the text `0`; any other finite real as its shortest decimal. -/
def realText (real : Float) : String :=
  match unpack real with
  | .nan => "nan"
  | .infinite negative => if negative then "-inf" else "inf"
  | .finite negative mantissa exponent =>
      if isWhole mantissa exponent && decide (wholePart mantissa exponent < wholeLimit) then
        integerText (signed negative (wholePart mantissa exponent))
      else
        (if negative then "-" else "") ++ Layout.standard.write (shortest mantissa exponent)

end CountedHeap.Decimal
