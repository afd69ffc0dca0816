import CountedHeap.Proofs.GuardedNumbers
import CountedHeap.Proofs.Runs
import CountedHeap.Coercion
import Mathlib.Data.List.Induction
import Mathlib.Data.Nat.Digits.Defs

/-!
Contract: the integer at the start of a text, against its exact value.

A text is cut into blanks, at most one sign, digits and a rest, each part as long as it can be.  The
value of the digits is a natural number of any size, place by place.  The reading stops at the ends
of the range after every product and every sum; squeezing the exact value once gives the same.

Owns:
- the cut of a text, and that every text has one;
- squeezing step by step against squeezing once;
- reading back what was written, and reading a text with more behind it.

Does not own: where the bytes of the parts begin and end.
-/

namespace CountedHeap

namespace Decimal

/-! ## Squeezing once -/

/-- The value of a run of digits: each digit counts by its place. -/
def placeValue (digits : List Char) : Nat :=
  Nat.ofDigits 10 (digits.map digitValue).reverse

/-- An integer, moved to the nearest end of the range of 64 bits if it lies outside. -/
def squeezed (exact : Int) : Int :=
  max Int64.minValue.toInt (min Int64.maxValue.toInt exact)

theorem toInt_ofIntClamp (exact : Int) : (Int64.ofIntClamp exact).toInt = squeezed exact := by
  have ends : Int64.minValue.toInt ≤ Int64.maxValue.toInt := by decide
  unfold squeezed
  by_cases low : Int64.minValue.toInt ≤ exact
  · by_cases high : exact ≤ Int64.maxValue.toInt
    · rw [Int64.toInt_ofIntClamp low high, min_eq_right high, max_eq_right low]
    · rw [Int64.ofIntClamp, dif_pos low, dif_neg high, min_eq_left (le_of_not_ge high),
        max_eq_right ends]
  · have below : exact ≤ Int64.minValue.toInt := le_of_not_ge low
    rw [Int64.ofIntClamp, dif_neg low, min_eq_right (le_trans below ends), max_eq_left below]

/-- Ten times a value on one side of zero, and a digit on the same side: squeezing in between makes
no difference.  The value is beyond an end of the range by then, and moves further away. -/
theorem squeezed_step (negative : Bool) (value digit : Nat) :
    squeezed (squeezed (squeezed (signed negative value) * 10) + signed negative digit) =
      squeezed (signed negative (value * 10 + digit)) := by
  have lowest : Int64.minValue.toInt = -9223372036854775808 := by decide
  have highest : Int64.maxValue.toInt = 9223372036854775807 := by decide
  unfold squeezed signed
  rw [lowest, highest]
  cases negative with
  | false =>
      rw [if_neg Bool.false_ne_true, if_neg Bool.false_ne_true, if_neg Bool.false_ne_true]
      omega
  | true =>
      rw [if_pos rfl, if_pos rfl, if_pos rfl]
      omega

theorem appendDigit_ofIntClamp (negative : Bool) (value : Nat) (digit : Char) :
    appendDigit negative (Int64.ofIntClamp (signed negative value)) digit =
      Int64.ofIntClamp (signed negative (value * 10 + digitValue digit)) := by
  apply Int64.toInt_inj.mp
  unfold appendDigit
  rw [toInt_ofIntClamp, toInt_ofIntClamp, toInt_ofIntClamp, toInt_ofIntClamp]
  exact squeezed_step negative value (digitValue digit)

/-- However many digits follow, squeezing after each of them is squeezing at the end. -/
theorem foldl_appendDigit (negative : Bool) (digits : List Char) (value : Nat) :
    digits.foldl (appendDigit negative) (Int64.ofIntClamp (signed negative value)) =
      Int64.ofIntClamp (signed negative
        (digits.foldl (fun value digit => value * 10 + digitValue digit) value)) := by
  induction digits generalizing value with
  | nil => rfl
  | cons digit rest inductionHypothesis =>
      rw [List.foldl_cons, appendDigit_ofIntClamp, inductionHypothesis, List.foldl_cons]

/-- Taking digits from the left one at a time counts each by its place. -/
theorem digitsValue_eq_placeValue (digits : List Char) :
    digitsValue digits = placeValue digits := by
  unfold digitsValue placeValue
  induction digits using List.reverseRecOn with
  | nil => rfl
  | append_singleton front digit inductionHypothesis =>
      rw [List.foldl_append, inductionHypothesis, List.map_append, List.reverse_append,
        List.map_singleton, List.reverse_singleton, List.singleton_append, Nat.ofDigits_cons,
        List.foldl_cons, List.foldl_nil, Nat.mul_comm, Nat.add_comm]

/-! ## Cutting a text -/

/-- A text, cut in front of and behind the integer at its start.  Each part is as long as it can be:
no blank follows the blanks, a sign that is there is taken, and no digit follows the digits. -/
structure IntegerParts (text : List Char) where
  blanks : List Char
  sign : Option Char
  digits : List Char
  rest : List Char
  whole : blanks ++ (sign.toList ++ (digits ++ rest)) = text
  areBlank : ∀ character ∈ blanks, Text.isBlank character = true
  noBlank : (sign.toList ++ (digits ++ rest)).head?.any Text.isBlank = false
  areSign : ∀ character ∈ sign, isSign character = true
  noSign : sign = none → (digits ++ rest).head?.any isSign = false
  areDigits : ∀ character ∈ digits, character.isDigit = true
  noDigit : rest.head?.any Char.isDigit = false

/-- What the digits and the sign mean, of any size. -/
def IntegerParts.exact {text : List Char} (parts : IntegerParts text) : Int :=
  signed (parts.sign == some '-') (placeValue parts.digits)

/-- The longest front of a list all of whose elements pass a test. -/
theorem takeWhile_eq_of_head {accepts : Char → Bool} {front rest : List Char}
    (all : ∀ character ∈ front, accepts character = true)
    (stops : rest.head?.any accepts = false) : (front ++ rest).takeWhile accepts = front := by
  rw [List.takeWhile_append_of_pos all]
  cases rest with
  | nil => rw [List.takeWhile_nil, List.append_nil]
  | cons head rest =>
      have refused : ¬accepts head = true := Bool.eq_false_iff.mp stops
      rw [List.takeWhile_cons_of_neg refused, List.append_nil]

theorem dropWhile_eq_of_head {accepts : Char → Bool} {front rest : List Char}
    (all : ∀ character ∈ front, accepts character = true)
    (stops : rest.head?.any accepts = false) : (front ++ rest).dropWhile accepts = rest := by
  rw [List.dropWhile_append_of_pos all]
  cases rest with
  | nil => rfl
  | cons head rest => exact List.dropWhile_cons_of_neg (Bool.eq_false_iff.mp stops)

theorem head?_any_dropWhile (accepts : Char → Bool) (text : List Char) :
    (text.dropWhile accepts).head?.any accepts = false := by
  cases left : text.dropWhile accepts with
  | nil => rfl
  | cons head rest =>
      have refused := List.head?_dropWhile_not accepts text
      rw [left] at refused
      exact refused

/-- A sign is taken off the front, or there is none. -/
theorem takeSign_eq {sign : Option Char} {rest : List Char}
    (areSign : ∀ character ∈ sign, isSign character = true)
    (noSign : sign = none → rest.head?.any isSign = false) :
    takeSign (sign.toList ++ rest) = (sign, rest) := by
  cases sign with
  | some character =>
      have either := Bool.or_eq_true_iff.mp (areSign character rfl)
      cases either with
      | inl minus =>
          rw [eq_of_beq minus]
          rfl
      | inr plus =>
          rw [eq_of_beq plus]
          rfl
  | none =>
      rcases takeSign_cases rest with ⟨sign, behind, rfl, isSigned, -⟩ | ⟨-, taken⟩
      · have unsigned : isSign sign = false := noSign rfl
        exact absurd isSigned (ne_true_of_eq_false unsigned)
      · exact taken

namespace IntegerParts

variable {text : List Char}

/-- Every text can be cut. -/
def ofText (text : List Char) : IntegerParts text where
  blanks := text.takeWhile Text.isBlank
  sign := (takeSign (Text.trimStart text)).1
  digits := (takeSign (Text.trimStart text)).2.takeWhile Char.isDigit
  rest := (takeSign (Text.trimStart text)).2.dropWhile Char.isDigit
  whole := by
    rw [List.takeWhile_append_dropWhile, Guarded.takeSign_append]
    exact List.takeWhile_append_dropWhile
  areBlank := fun character member => List.mem_takeWhile_imp member
  noBlank := by
    rw [List.takeWhile_append_dropWhile, Guarded.takeSign_append]
    exact head?_any_dropWhile Text.isBlank text
  areSign := by
    intro character taken
    rcases takeSign_cases (Text.trimStart text) with ⟨sign, rest, -, isSigned, cut⟩ | ⟨-, cut⟩
    · rw [cut] at taken
      exact Option.some.inj taken ▸ isSigned
    · rw [cut] at taken
      contradiction
  noSign := by
    intro absent
    rw [List.takeWhile_append_dropWhile]
    rcases takeSign_cases (Text.trimStart text) with ⟨sign, rest, -, -, cut⟩ | ⟨unsigned, cut⟩
    · rw [cut] at absent
      contradiction
    · rw [cut]
      exact unsigned
  areDigits := fun character member => List.mem_takeWhile_imp member
  noDigit := head?_any_dropWhile Char.isDigit _

/-- The reading is the squeezed value of the digits, wherever the text is cut. -/
theorem integerPrefix_eq (parts : IntegerParts text) {content : String}
    (spelled : content.toList = text) :
    integerPrefix content = Int64.ofIntClamp parts.exact := by
  have trimmed : Text.trimStart content.toList =
      parts.sign.toList ++ (parts.digits ++ parts.rest) := by
    have dropped := dropWhile_eq_of_head parts.areBlank parts.noBlank
    rw [parts.whole] at dropped
    exact (congrArg Text.trimStart spelled).trans dropped
  have signing := takeSign_eq parts.areSign parts.noSign
  have run := takeWhile_eq_of_head parts.areDigits parts.noDigit
  unfold integerPrefix
  rw [trimmed, signing]
  show ((parts.digits ++ parts.rest).takeWhile Char.isDigit).foldl
    (appendDigit (parts.sign == some '-')) 0 = _
  have zero : (0 : Int64) = Int64.ofIntClamp (signed (parts.sign == some '-') 0) := by
    cases parts.sign == some '-' <;> rfl
  rw [run, zero, foldl_appendDigit]
  exact congrArg (fun value => Int64.ofIntClamp (signed (parts.sign == some '-') value))
    (digitsValue_eq_placeValue parts.digits)

/-- What stands behind a run of digits may go on, if not with a digit. -/
def append (parts : IntegerParts text) (digits : parts.digits ≠ []) {appended : List Char}
    (noDigit : appended.head?.any Char.isDigit = false) : IntegerParts (text ++ appended) where
  blanks := parts.blanks
  sign := parts.sign
  digits := parts.digits
  rest := parts.rest ++ appended
  whole := by
    have before := congrArg (· ++ appended) parts.whole
    simp only [List.append_assoc] at before
    exact before
  areBlank := parts.areBlank
  noBlank := by
    have before := parts.noBlank
    rw [← List.append_assoc, List.head?_append_of_ne_nil _ (by simp [digits])] at before ⊢
    exact before
  areSign := parts.areSign
  noSign := by
    intro absent
    have before := parts.noSign absent
    rw [List.head?_append_of_ne_nil _ digits] at before ⊢
    exact before
  areDigits := parts.areDigits
  noDigit := by
    cases behind : parts.rest with
    | nil => exact noDigit
    | cons head rest =>
        have before := parts.noDigit
        rw [behind] at before
        exact before

end IntegerParts

theorem isSign_eq_false_of_isDigit {character : Char} (digit : character.isDigit = true) :
    isSign character = false := by
  apply Bool.eq_false_iff.mpr
  intro isSigned
  cases Bool.or_eq_true_iff.mp isSigned with
  | inl minus =>
      rw [eq_of_beq minus] at digit
      contradiction
  | inr plus =>
      rw [eq_of_beq plus] at digit
      contradiction

/-- The digits of a number begin with none of these. -/
theorem head?_any_toDigits {accepts : Char → Bool} (number : Nat)
    (refuses : ∀ character : Char, character.isDigit = true → accepts character = false) :
    (Nat.toDigits 10 number).head?.any accepts = false := by
  have digits := fun character => @Nat.isDigit_of_mem_toDigits 10 number character
    (by decide) (by decide)
  cases run : Nat.toDigits 10 number with
  | nil => rfl
  | cons head rest =>
      have member : head ∈ Nat.toDigits 10 number := run ▸ List.mem_cons_self
      exact refuses head (digits head member)

/-- The text of an integer, cut. -/
def IntegerParts.ofInt (number : Int) : IntegerParts (integerText number).toList where
  blanks := []
  sign := if number < 0 then some '-' else none
  digits := Nat.toDigits 10 number.natAbs
  rest := []
  whole := by
    unfold integerText naturalText
    split
    · rw [List.append_nil, String.toList_append, String.toList_ofList, String.toList_ofList]
      rfl
    · rw [String.toList_ofList, List.append_nil]
      rfl
  areBlank := fun _ member => absurd member List.not_mem_nil
  noBlank := by
    rw [List.append_nil]
    split
    · show Text.isBlank '-' = false
      decide
    · exact head?_any_toDigits _ fun _ => Text.isBlank_eq_false_of_isDigit
  areSign := by
    intro character taken
    split at taken
    · exact Option.some.inj taken ▸ rfl
    · contradiction
  noSign := by
    intro _
    rw [List.append_nil]
    exact head?_any_toDigits _ fun _ => isSign_eq_false_of_isDigit
  areDigits := fun _ => Nat.isDigit_of_mem_toDigits (by decide) (by decide)
  noDigit := rfl

/-- What is written is read. -/
theorem integerPrefix_integerText (number : Int64) :
    integerPrefix (integerText number.toInt) = number := by
  rw [(IntegerParts.ofInt number.toInt).integerPrefix_eq rfl]
  have exact : (IntegerParts.ofInt number.toInt).exact = number.toInt := by
    unfold IntegerParts.exact IntegerParts.ofInt signed
    rw [← digitsValue_eq_placeValue, digitsValue_toDigits]
    split
    next negative =>
      rw [show (some '-' == some '-') = true from rfl, if_pos rfl]
      omega
    next negative =>
      rw [show ((none : Option Char) == some '-') = false from rfl, if_neg Bool.false_ne_true]
      omega
  rw [exact, Int64.ofIntClamp_toInt]

/-- A string reads as the integer at its start. -/
theorem asInt_string {σ : Signature} {heap : Heap σ} (consistent : heap.Consistent)
    (content : String) :
    (heap.string content).2.asInt (heap.string content).1 = integerPrefix content := by
  have stored : (heap.string content).2.payload (heap.string content).1 = .text content :=
    Heap.payload_create_self consistent (.text content)
  rw [Heap.asInt, stored]

/-- Reading the integer at the start of a text.

Every text can be cut, and wherever it is cut so, the reading is the exact value of the digits,
negated behind a minus, and squeezed once.  Without digits it is zero.  Behind digits a text may go
on with anything but a digit.  So an integer that is written into a string is read back from it, in
every heap that a run from an empty one reaches. -/
theorem integerPrefix_squeezes (text : String) :
    Nonempty (IntegerParts text.toList) ∧
    (∀ parts : IntegerParts text.toList,
      (integerPrefix text).toInt = squeezed parts.exact ∧
      (parts.digits = [] → integerPrefix text = 0) ∧
      (parts.digits ≠ [] → ∀ appended : String, appended.toList.head?.any Char.isDigit = false →
        integerPrefix (text ++ appended) = integerPrefix text)) ∧
    ∀ {σ : Signature} {config : Config} {heap : Heap σ}, Heap.Runs True (.new config) heap →
      (heap.string text).2.asInt (heap.string text).1 = integerPrefix text ∧
      ∀ number : Int64,
        let stored := heap.string (integerText number.toInt)
        stored.2.asInt stored.1 = number := by
  refine ⟨⟨.ofText text.toList⟩, ?_, ?_⟩
  · intro parts
    have read : integerPrefix text = Int64.ofIntClamp parts.exact := parts.integerPrefix_eq rfl
    refine ⟨?_, ?_, ?_⟩
    · rw [read]
      exact toInt_ofIntClamp parts.exact
    · intro noDigits
      rw [read, IntegerParts.exact, noDigits]
      cases parts.sign == some '-' <;> rfl
    · intro digits appended noDigit
      rw [read]
      exact (parts.append digits noDigit).integerPrefix_eq String.toList_append
  · intro σ config heap runs
    have consistent : heap.Consistent := runs.proper_new.toConsistent
    refine ⟨asInt_string consistent text, ?_⟩
    intro number stored
    show (heap.string (integerText number.toInt)).2.asInt _ = number
    rw [asInt_string consistent, integerPrefix_integerText]

/-- Blanks, a minus, one more than fits, and something else behind it. -/
def belowRange : IntegerParts " \t-9223372036854775809x".toList where
  blanks := [' ', '\t']
  sign := some '-'
  digits := "9223372036854775809".toList
  rest := ['x']
  whole := by decide
  areBlank := List.all_eq_true.mp (by decide)
  noBlank := by decide
  areSign := fun _ isMinus => Option.some.inj isMinus ▸ rfl
  noSign := by decide
  areDigits := List.all_eq_true.mp (by decide)
  noDigit := by decide

/-- The magnitude of the lowest integer does not fit on the other side of zero.  It is read from its
text, and so it is from the text of what lies below it. -/
theorem lowest_integer_is_read :
    belowRange.exact = -9223372036854775809 ∧
    (integerPrefix " \t-9223372036854775809x").toInt = -9223372036854775808 ∧
    belowRange.digits ≠ [] ∧ ".5".toList.head?.any Char.isDigit = false ∧
    integerPrefix (" \t-9223372036854775809x" ++ ".5") =
      integerPrefix " \t-9223372036854775809x" ∧
    Heap.Runs True (.new {}) (.new {} : Heap .bare) ∧
    ((.new {} : Heap .bare).string (integerText Int64.minValue.toInt)).2.asInt
      ((.new {} : Heap .bare).string (integerText Int64.minValue.toInt)).1 = Int64.minValue := by
  obtain ⟨-, reading, stored⟩ := integerPrefix_squeezes " \t-9223372036854775809x"
  obtain ⟨value, -, longer⟩ := reading belowRange
  have exact : belowRange.exact = -9223372036854775809 := by decide +kernel
  have some : belowRange.digits ≠ [] := by decide
  have behind : ".5".toList.head?.any Char.isDigit = false := by decide
  rw [exact] at value
  exact ⟨exact, value.trans (by decide), some, behind, longer some ".5" behind, .refl,
    (stored .refl).2 Int64.minValue⟩

end Decimal

end CountedHeap
