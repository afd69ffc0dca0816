import CountedHeap.Decimal.Binary
import CountedHeap.Decimal.Integer
import CountedHeap.Text.Blank

/-!
Contract: numbers at the start of a text.

Owns:
- the leading integer of a text, squeezed into 64 bits;
- the grammar of a leading real, `[+-] D* [. D*] [(e|E) [+-] D+]` with at least one digit
  before the exponent, and its value, correctly rounded.

Text that does not start with a number counts as zero.
-/

namespace CountedHeap.Decimal

/-- Take a sign off the front of a text. -/
def takeSign : List Char → Option Char × List Char
  | '-' :: rest => (some '-', rest)
  | '+' :: rest => (some '+', rest)
  | text => (none, text)

/-- One more digit on an integer, on the side of zero that the sign says.  Both the product
and the sum stop at the ends of the range. -/
def appendDigit (negative : Bool) (value : Int64) (digit : Char) : Int64 :=
  let shifted := Int64.ofIntClamp (value.toInt * 10)
  Int64.ofIntClamp (shifted.toInt + signed negative (digitValue digit))

/-- The leading integer of a text: blanks, a sign, digits. -/
def integerPrefix (text : String) : Int64 :=
  let (sign, rest) := takeSign (Text.trimStart text.toList)
  (rest.takeWhile Char.isDigit).foldl (appendDigit (sign == some '-')) 0

/-- The exponent part of a real. -/
structure ExponentPart where
  mark : Char
  sign : Option Char
  digits : List Char
deriving DecidableEq, Repr

/-- A real as it is spelled.  `fraction` is absent if there is no point. -/
structure RealLiteral where
  sign : Option Char
  whole : List Char
  fraction : Option (List Char)
  exponent : Option ExponentPart
deriving DecidableEq, Repr

namespace RealLiteral

/-- The characters of a literal. -/
def spelling (literal : RealLiteral) : List Char :=
  literal.sign.toList ++ literal.whole ++
    (match literal.fraction with
      | none => []
      | some digits => '.' :: digits) ++
    (match literal.exponent with
      | none => []
      | some part => part.mark :: part.sign.toList ++ part.digits)

/-- All digits before the exponent. -/
def significant (literal : RealLiteral) : List Char :=
  literal.whole ++ literal.fraction.getD []

/-- The power of ten by which the significant digits are scaled. -/
def scale (literal : RealLiteral) : Int :=
  let written : Int := match literal.exponent with
    | none => 0
    | some part => signed (part.sign == some '-') (digitsValue part.digits)
  written - (literal.fraction.getD []).length

/-- The value of a literal, correctly rounded.

With `count` digits after the leading zeros the magnitude lies between
`10 ^ (scale + count - 1)` and `10 ^ (scale + count)`, so far outside the range of the
finite reals the powers of ten need not be computed. -/
def value (literal : RealLiteral) : Float :=
  let negative := literal.sign == some '-'
  let digits := literal.significant.dropWhile (· == '0')
  let magnitude : Int := literal.scale + digits.length
  if digits.isEmpty || decide (magnitude < -400) then nearest negative 0 1
  else if 400 < magnitude then nearest negative (Nat.pow 10 400) 1
  else
    nearest negative (digitsValue digits * Nat.pow 10 literal.scale.toNat)
      (Nat.pow 10 (-literal.scale).toNat)

end RealLiteral

/-- The point and the digits after it, if the text starts with a point. -/
def takeFraction : List Char → Option (List Char) × List Char
  | '.' :: rest => (some (rest.takeWhile Char.isDigit), rest.dropWhile Char.isDigit)
  | text => (none, text)

/-- The exponent part, if the text starts with a complete one.  A mark without digits
behind it is no exponent. -/
def takeExponent : List Char → Option ExponentPart
  | [] => none
  | mark :: rest =>
      if mark == 'e' || mark == 'E' then
        let (sign, rest) := takeSign rest
        match rest.takeWhile Char.isDigit with
        | [] => none
        | digits => some ⟨mark, sign, digits⟩
      else none

/-- The longest literal at the start of a text, or `none` if no digit comes before the
exponent. -/
def realLiteral? (text : List Char) : Option RealLiteral :=
  let (sign, rest) := takeSign text
  let whole := rest.takeWhile Char.isDigit
  let (fraction, rest) := takeFraction (rest.dropWhile Char.isDigit)
  if whole.isEmpty && (fraction.getD []).isEmpty then none
  else some ⟨sign, whole, fraction, takeExponent rest⟩

/-- The leading real of a text, after blanks. -/
def realPrefix (text : String) : Float :=
  match realLiteral? (Text.trimStart text.toList) with
  | some literal => literal.value
  | none => nearest false 0 1

end CountedHeap.Decimal
