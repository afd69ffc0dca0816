import CountedHeap.Decimal.Reading
import CountedHeap.Proofs.GuardedText
import Mathlib.Data.List.TakeWhile

/-!
Contract: reading a number at the start of a text, spelled by guarded steps on bytes.

The characters of a number take one byte each, and no byte of another character looks like one of
them.  So a scan by bytes stops where a scan by characters stops, and always between two characters.

Owns:
- the bytes of characters, and tests that only single-byte characters pass;
- the scans of the two readings, which never misstep and find what the readings find.
-/

namespace CountedHeap

namespace Text

/-- The UTF-8 bytes of a list of characters. -/
def encoded (text : List Char) : List UInt8 :=
  text.flatMap String.utf8EncodeChar

theorem length_encoded (text : List Char) : (encoded text).length = byteLength text := by
  induction text with
  | nil => rfl
  | cons head rest inductionHypothesis =>
      rw [encoded, List.flatMap_cons, List.length_append, String.length_utf8EncodeChar, ← encoded,
        inductionHypothesis, byteLength]

theorem encoded_append (front back : List Char) :
    encoded (front ++ back) = encoded front ++ encoded back :=
  List.flatMap_append

/-- A character of one byte is its byte, and the first byte of any other is none of these. -/
theorem exists_lead (character : Char) : ∃ byte rest,
    String.utf8EncodeChar character = byte :: rest ∧
      (character.toNat ≤ 127 → byte.toNat = character.toNat ∧ rest = []) ∧
      (127 < character.toNat → 127 < byte.toNat) := by
  have bound : character.val.toNat < 0x110000 := by
    rcases character.valid with low | ⟨-, high⟩
    · exact Nat.lt_trans low (by decide)
    · exact high
  unfold String.utf8EncodeChar Char.toNat
  generalize character.val.toNat = number at bound
  dsimp only
  split_ifs with first second third
  all_goals refine ⟨_, _, rfl, fun small => ?_, fun large => ?_⟩
  all_goals first | omega | skip
  · exact ⟨UInt8.toNat_ofNat_of_lt' (Nat.lt_of_le_of_lt small (by decide)), rfl⟩
  all_goals
    rw [UInt8.toNat_ofNat']
    omega

/-- A test that only single-byte characters pass. -/
def IsAscii (accepts : Char → Bool) : Prop :=
  ∀ character, accepts character = true → character.toNat ≤ 127

/-- Whether a byte is a character that passes a test. -/
def reads (accepts : Char → Bool) (byte : UInt8) : Bool :=
  accepts (Char.ofNat byte.toNat)

/-- Testing the first byte of a character is testing the character. -/
theorem reads_lead {accepts : Char → Bool} (ascii : IsAscii accepts) {character : Char}
    {byte : UInt8} {rest : List UInt8} (encoding : String.utf8EncodeChar character = byte :: rest) :
    reads accepts byte = accepts character := by
  obtain ⟨lead, others, encodingToo, single, multiple⟩ := exists_lead character
  obtain ⟨rfl, rfl⟩ := List.cons.inj (encoding.symm.trans encodingToo)
  unfold reads
  by_cases small : character.toNat ≤ 127
  · rw [(single small).1, Char.ofNat_toNat]
  · have large := multiple (Nat.lt_of_not_le small)
    have valid : (Char.ofNat byte.toNat).toNat = byte.toNat := by
      have short := byte.toNat_lt
      rw [Char.ofNat, dif_pos (Or.inl (by omega))]
      rfl
    have refused : accepts character = false :=
      Bool.eq_false_iff.mpr fun passes => small (ascii character passes)
    rw [refused]
    refine Bool.eq_false_iff.mpr fun passes => ?_
    have low := ascii _ passes
    omega

/-- The byte behind some characters is the first byte of the next one. -/
theorem getElem?_encoded {accepts : Char → Bool} (ascii : IsAscii accepts)
    (front rest : List Char) :
    (encoded (front ++ rest))[byteLength front]?.any (reads accepts) = rest.head?.any accepts := by
  rw [encoded_append, ← length_encoded, List.getElem?_append_right (Nat.le_refl _), Nat.sub_self]
  cases rest with
  | nil => rfl
  | cons head rest =>
      obtain ⟨byte, others, encoding, -⟩ := exists_lead head
      rw [encoded, List.flatMap_cons, encoding, List.cons_append, List.getElem?_cons_zero,
        List.head?_cons, Option.any_some, Option.any_some]
      exact reads_lead ascii encoding

/-- A character that passes such a test takes one byte. -/
theorem byteLength_append_of_isAscii {accepts : Char → Bool} (ascii : IsAscii accepts)
    {character : Char} (passes : accepts character = true) (front : List Char) :
    byteLength (front ++ [character]) = byteLength front + 1 := by
  obtain ⟨byte, rest, encoding, single, -⟩ := exists_lead character
  have short := String.length_utf8EncodeChar character
  rw [encoding, (single (ascii character passes)).2, List.length_singleton] at short
  rw [byteLength_append, byteLength, byteLength, ← short]

end Text

namespace Decimal

/-- Whether a character is a sign. -/
def isSign (character : Char) : Bool :=
  character == '-' || character == '+'

/-- Whether a character is the mark of an exponent. -/
def isMark (character : Char) : Bool :=
  character == 'e' || character == 'E'

/-- A sign is taken if there is one. -/
theorem takeSign_cases (text : List Char) :
    (∃ sign rest, text = sign :: rest ∧ isSign sign = true ∧ takeSign text = (some sign, rest)) ∨
      text.head?.any isSign = false ∧ takeSign text = (none, text) := by
  unfold takeSign
  split
  next rest => exact .inl ⟨'-', rest, rfl, rfl, rfl⟩
  next rest => exact .inl ⟨'+', rest, rfl, rfl, rfl⟩
  next notMinus notPlus =>
    refine .inr ⟨?_, rfl⟩
    cases text with
    | nil => rfl
    | cons head rest =>
        have neither : head ≠ '-' ∧ head ≠ '+' :=
          ⟨fun same => notMinus rest (by rw [same]), fun same => notPlus rest (by rw [same])⟩
        simp [isSign, neither]

theorem isAscii_isDigit : Text.IsAscii Char.isDigit := by
  intro character digit
  simp only [Char.isDigit, Bool.and_eq_true, decide_eq_true_eq] at digit
  have high : character.toNat ≤ 57 := digit.2
  omega

theorem isAscii_beq {expected : Char} (small : expected.toNat ≤ 127) :
    Text.IsAscii (· == expected) := by
  intro character same
  rw [eq_of_beq same]
  exact small

theorem isAscii_or {accepts accepts' : Char → Bool} (ascii : Text.IsAscii accepts)
    (ascii' : Text.IsAscii accepts') :
    Text.IsAscii fun character => accepts character || accepts' character := by
  intro character passes
  rcases Bool.or_eq_true_iff.mp passes with first | second
  · exact ascii character first
  · exact ascii' character second

theorem isAscii_isSign : Text.IsAscii isSign :=
  isAscii_or (isAscii_beq (by decide)) (isAscii_beq (by decide))

theorem isAscii_isMark : Text.IsAscii isMark :=
  isAscii_or (isAscii_beq (by decide)) (isAscii_beq (by decide))

end Decimal

namespace Guarded

open Text Decimal

variable {m : Type → Type} [Monad m]

/-- Whether there is a byte at an index and it passes a test. -/
def peek (accepts : Char → Bool) (bytes : List UInt8) (index : Nat) : Guarded m Bool :=
  if index < bytes.length then do
    let byte ← element bytes index
    return reads accepts byte
  else return false

/-- The end of the run of bytes that pass a test. -/
def runEnd (accepts : Char → Bool) (bytes : List UInt8) (index : Nat) : Guarded m Nat :=
  if index < bytes.length then do
    let byte ← element bytes index
    if reads accepts byte then runEnd accepts bytes (index + 1) else return index
  else return index
termination_by bytes.length - index

variable {accepts : Char → Bool}

theorem peek_eq [LawfulMonad m] (ascii : IsAscii accepts) (front rest : List Char) :
    peek accepts (encoded (front ++ rest)) (byteLength front) =
      (pure (rest.head?.any accepts) : Guarded m Bool) := by
  rw [← getElem?_encoded ascii front rest]
  unfold peek
  split
  next inside =>
    have present := List.getElem?_eq_getElem inside
    rw [element_eq present, pure_bind, present, Option.any_some]
  next outside =>
    rw [List.getElem?_eq_none (Nat.le_of_not_lt outside)]
    rfl

theorem runEnd_eq [LawfulMonad m] (ascii : IsAscii accepts) (front rest : List Char) :
    runEnd accepts (encoded (front ++ rest)) (byteLength front) =
      (pure (byteLength (front ++ rest.takeWhile accepts)) : Guarded m Nat) := by
  induction rest generalizing front with
  | nil =>
      have past : ¬byteLength front < (encoded (front ++ [])).length := by
        rw [length_encoded, List.append_nil]
        omega
      rw [runEnd, if_neg past, List.takeWhile_nil, List.append_nil]
  | cons head rest inductionHypothesis =>
      have positive := head.utf8Size_pos
      have inside : byteLength front < (encoded (front ++ head :: rest)).length := by
        rw [length_encoded, byteLength_append, byteLength]
        omega
      have present := List.getElem?_eq_getElem inside
      have tested := getElem?_encoded ascii front (head :: rest)
      rw [present, Option.any_some, List.head?_cons, Option.any_some] at tested
      rw [runEnd, if_pos inside, element_eq present, pure_bind, tested]
      split
      next passes =>
        rw [List.takeWhile_cons_of_pos passes, ← byteLength_append_of_isAscii ascii passes,
          List.append_cons front head rest, inductionHypothesis, ← List.append_cons]
      next refused => rw [List.takeWhile_cons_of_neg refused, List.append_nil]

/-! ## Integers -/

/-- A text without the sign at its front. -/
def unsigned (bytes : List UInt8) : Guarded m (List UInt8) :=
  if bytes.head?.any (reads isSign) then range bytes 1 bytes.length else pure bytes

/-- One more digit on an integer. -/
def appendByte (negative : Bool) (value : Int64) (byte : UInt8) : Guarded m Int64 := do
  let _ ← minus byte.toNat '0'.toNat
  return appendDigit negative value (Char.ofNat byte.toNat)

/-- The leading integer of a text. -/
def integerPrefix (text : String) : Guarded m Int64 := do
  let bytes := encoded (trimStart text.toList)
  let digits ← unsigned bytes
  (digits.takeWhile (reads Char.isDigit)).foldlM
    (appendByte (bytes.head?.any (reads (· == '-')))) 0

theorem head?_encoded (ascii : IsAscii accepts) (text : List Char) :
    (encoded text).head?.any (reads accepts) = text.head?.any accepts := by
  rw [List.head?_eq_getElem?]
  exact getElem?_encoded ascii [] text

theorem takeWhile_encoded (ascii : IsAscii accepts) (text : List Char) :
    (encoded text).takeWhile (reads accepts) = encoded (text.takeWhile accepts) := by
  induction text with
  | nil => rfl
  | cons head rest inductionHypothesis =>
      obtain ⟨byte, others, encoding, single, -⟩ := exists_lead head
      have tested := reads_lead ascii encoding
      rw [encoded, List.flatMap_cons, encoding, List.cons_append]
      cases passes : accepts head with
      | true =>
          obtain rfl := (single (ascii head passes)).2
          rw [List.takeWhile_cons_of_pos (tested.trans passes), List.nil_append, ← encoded,
            inductionHypothesis, List.takeWhile_cons_of_pos passes, encoded, encoded,
            List.flatMap_cons, encoding]
          rfl
      | false =>
          rw [List.takeWhile_cons_of_neg (by rw [tested, passes]; exact Bool.false_ne_true),
            List.takeWhile_cons_of_neg (by rw [passes]; exact Bool.false_ne_true)]
          rfl

theorem foldlM_appendByte [LawfulMonad m] (negative : Bool) {digits : List Char}
    (all : ∀ digit ∈ digits, digit.isDigit = true) (value : Int64) :
    (encoded digits).foldlM (appendByte negative) value =
      (pure (digits.foldl (appendDigit negative) value) : Guarded m Int64) := by
  induction digits generalizing value with
  | nil => rfl
  | cons digit rest inductionHypothesis =>
      obtain ⟨here, others⟩ := List.forall_mem_cons.mp all
      obtain ⟨byte, tail, encoding, single, -⟩ := exists_lead digit
      obtain ⟨same, rfl⟩ := single (isAscii_isDigit digit here)
      have atLeast : '0'.toNat ≤ byte.toNat := by
        rw [same]
        simp only [Char.isDigit, Bool.and_eq_true, decide_eq_true_eq] at here
        exact here.1
      rw [encoded, List.flatMap_cons, encoding, List.singleton_append, List.foldlM_cons,
        appendByte, minus_eq atLeast, pure_bind, pure_bind, same, Char.ofNat_toNat]
      exact inductionHypothesis others _

theorem unsigned_eq (text : List Char) :
    unsigned (encoded text) = (pure (encoded (takeSign text).2) : Guarded m (List UInt8)) := by
  unfold unsigned
  rw [head?_encoded isAscii_isSign]
  rcases takeSign_cases text with ⟨sign, rest, rfl, isSigned, taken⟩ | ⟨signless, taken⟩
  · obtain ⟨byte, others, encoding, single, -⟩ := exists_lead sign
    obtain ⟨-, rfl⟩ := single (isAscii_isSign sign isSigned)
    have bytes : encoded (sign :: rest) = byte :: encoded rest := by
      rw [encoded, List.flatMap_cons, encoding]
      rfl
    have nonempty : 1 ≤ (byte :: encoded rest).length := Nat.le_add_left _ _
    rw [List.head?_cons, Option.any_some, if_pos isSigned, taken, bytes,
      range_eq nonempty (Nat.le_refl _), List.take_length]
    rfl
  · rw [signless, taken]
    rfl

theorem isNegative_eq (text : List Char) :
    text.head?.any (· == '-') = ((takeSign text).1 == some '-') := by
  rcases takeSign_cases text with ⟨sign, rest, rfl, -, taken⟩ | ⟨signless, taken⟩
  · rw [taken]
    rfl
  · rw [taken]
    cases text with
    | nil => rfl
    | cons head rest =>
        rw [List.head?_cons, Option.any_some] at signless ⊢
        exact (Bool.or_eq_false_iff.mp signless).1

/-- Reading an integer never missteps. -/
theorem integerPrefix_eq [LawfulMonad m] (text : String) :
    integerPrefix text = (pure (Decimal.integerPrefix text) : Guarded m Int64) := by
  unfold integerPrefix
  dsimp only
  rw [unsigned_eq, pure_bind, head?_encoded (isAscii_beq (by decide)), isNegative_eq,
    takeWhile_encoded isAscii_isDigit,
    foldlM_appendByte _ fun digit member => List.mem_takeWhile_imp member]
  rfl

/-! ## Reals -/

/-- The digits after a point at an index: how many there are, and where they end. -/
def fractionEnd (bytes : List UInt8) (index : Nat) : Guarded m (Nat × Nat) := do
  if ← peek (· == '.') bytes index then
    let stop ← runEnd Char.isDigit bytes (index + 1)
    let digits ← minus stop (index + 1)
    return (digits, stop)
  else return (0, index)

/-- The end of the exponent at an index.  A mark without digits behind it is none. -/
def exponentEnd (bytes : List UInt8) (index : Nat) : Guarded m Nat := do
  if ← peek isMark bytes index then
    let start := if bytes[index + 1]?.any (reads isSign) then index + 2 else index + 1
    let stop ← runEnd Char.isDigit bytes start
    return if start < stop then stop else index
  else return index

/-- The end of the real at the start of a text, if there is one. -/
def realEnd (bytes : List UInt8) : Guarded m (Option Nat) := do
  let start := if bytes.head?.any (reads isSign) then 1 else 0
  let wholeStop ← runEnd Char.isDigit bytes start
  let whole ← minus wholeStop start
  let (fraction, stop) ← fractionEnd bytes wholeStop
  if whole + fraction = 0 then return none
  else return some (← exponentEnd bytes stop)

/-- The characters of the real at the start of a text, if there is one. -/
def realSpelling (text : List Char) : Guarded m (Option (List Char)) := do
  match ← realEnd (encoded text) with
  | none => return none
  | some stop => return some (← cut text 0 stop)

/-- The characters of a fraction. -/
def fractionSpelling : Option (List Char) → List Char
  | none => []
  | some digits => '.' :: digits

/-- The characters of an exponent. -/
def exponentSpelling : Option ExponentPart → List Char
  | none => []
  | some part => part.mark :: part.sign.toList ++ part.digits

theorem byteLength_of_isAscii {text : List Char} (ascii : IsAscii accepts)
    (all : ∀ character ∈ text, accepts character = true) : byteLength text = text.length := by
  induction text with
  | nil => rfl
  | cons head rest inductionHypothesis =>
      obtain ⟨here, others⟩ := List.forall_mem_cons.mp all
      have single := byteLength_append_of_isAscii ascii here []
      simp only [List.nil_append, byteLength, Nat.add_zero, Nat.zero_add] at single
      rw [byteLength, single, inductionHypothesis others, List.length_cons, Nat.add_comm]

theorem byteLength_digits (rest : List Char) :
    byteLength (rest.takeWhile Char.isDigit) = (rest.takeWhile Char.isDigit).length :=
  byteLength_of_isAscii isAscii_isDigit fun _ member => List.mem_takeWhile_imp member

/-- A fraction is taken if there is a point. -/
theorem takeFraction_cases (text : List Char) :
    (∃ rest, text = '.' :: rest ∧ takeFraction text =
      (some (rest.takeWhile Char.isDigit), rest.dropWhile Char.isDigit)) ∨
      text.head?.any (· == '.') = false ∧ takeFraction text = (none, text) := by
  unfold takeFraction
  split
  next rest => exact .inl ⟨rest, rfl, rfl⟩
  next noPoint =>
    refine .inr ⟨?_, rfl⟩
    cases text with
    | nil => rfl
    | cons head rest =>
        have different : head ≠ '.' := fun same => noPoint rest (by rw [same])
        simpa using different

theorem fractionEnd_eq [LawfulMonad m] (front rest : List Char) :
    fractionEnd (encoded (front ++ rest)) (byteLength front) =
      (pure (((takeFraction rest).1.getD []).length,
        byteLength (front ++ fractionSpelling (takeFraction rest).1)) : Guarded m (Nat × Nat)) := by
  have ascii : IsAscii (· == '.') := isAscii_beq (by decide)
  unfold fractionEnd
  rw [peek_eq ascii, pure_bind]
  rcases takeFraction_cases rest with ⟨rest, rfl, taken⟩ | ⟨pointless, taken⟩
  · have behind := byteLength_append_of_isAscii ascii (beq_self_eq_true '.') front
    have digits := byteLength_append (front ++ ['.']) (rest.takeWhile Char.isDigit)
    rw [List.head?_cons, Option.any_some, if_pos (beq_self_eq_true '.'), ← behind,
      List.append_cons front, runEnd_eq isAscii_isDigit, pure_bind, digits,
      minus_eq (Nat.le_add_right _ _), pure_bind, Nat.add_sub_cancel_left, ← digits,
      byteLength_digits, taken, ← List.append_cons]
    rfl
  · rw [pointless, taken, fractionSpelling, List.append_nil]
    rfl

/-- An exponent is taken if there are a mark and digits. -/
theorem takeExponent_cases (text : List Char) :
    (∃ mark rest, text = mark :: rest ∧ isMark mark = true ∧
      takeExponent text =
        if ((takeSign rest).2.takeWhile Char.isDigit).isEmpty then none
        else some ⟨mark, (takeSign rest).1, (takeSign rest).2.takeWhile Char.isDigit⟩) ∨
      text.head?.any isMark = false ∧ takeExponent text = none := by
  cases text with
  | nil => exact .inr ⟨rfl, rfl⟩
  | cons mark rest =>
      rw [List.head?_cons, Option.any_some, takeExponent]
      cases marked : mark == 'e' || mark == 'E' with
      | false => exact .inr ⟨marked, rfl⟩
      | true =>
          refine .inl ⟨mark, rest, rfl, marked, ?_⟩
          rw [if_pos rfl]
          dsimp only
          cases (takeSign rest).2.takeWhile Char.isDigit <;> rfl

theorem takeSign_append (text : List Char) :
    (takeSign text).1.toList ++ (takeSign text).2 = text := by
  rcases takeSign_cases text with ⟨sign, rest, rfl, -, taken⟩ | ⟨-, taken⟩
  · rw [taken]
    rfl
  · rw [taken]
    rfl

/-- Where the digits behind a place for a sign begin. -/
theorem byteLength_append_sign (front text : List Char) :
    byteLength (front ++ (takeSign text).1.toList) =
      if text.head?.any isSign then byteLength front + 1 else byteLength front := by
  rcases takeSign_cases text with ⟨sign, rest, rfl, isSigned, taken⟩ | ⟨signless, taken⟩
  · rw [taken, List.head?_cons, Option.any_some, if_pos isSigned]
    exact byteLength_append_of_isAscii isAscii_isSign isSigned front
  · rw [taken, signless, Option.toList_none, List.append_nil]
    rfl

theorem exponentEnd_eq [LawfulMonad m] (front rest : List Char) :
    exponentEnd (encoded (front ++ rest)) (byteLength front) =
      (pure (byteLength (front ++ exponentSpelling (takeExponent rest))) : Guarded m Nat) := by
  unfold exponentEnd
  rw [peek_eq isAscii_isMark, pure_bind]
  rcases takeExponent_cases rest with ⟨mark, rest, rfl, marked, taken⟩ | ⟨markless, taken⟩
  · have behind := byteLength_append_of_isAscii isAscii_isMark marked front
    have sign := getElem?_encoded isAscii_isSign (front ++ [mark]) rest
    have start := byteLength_append_sign (front ++ [mark]) rest
    rw [behind, ← List.append_cons] at sign
    rw [behind] at start
    rw [List.head?_cons, Option.any_some, if_pos marked]
    dsimp only
    rw [sign, ← start]
    have whole : front ++ mark :: rest =
        front ++ [mark] ++ (takeSign rest).1.toList ++ (takeSign rest).2 := by
      rw [List.append_assoc _ _ (takeSign rest).2, takeSign_append, ← List.append_cons]
    have digits := byteLength_append (front ++ [mark] ++ (takeSign rest).1.toList)
      ((takeSign rest).2.takeWhile Char.isDigit)
    rw [byteLength_digits] at digits
    rw [whole, runEnd_eq isAscii_isDigit, pure_bind, taken, digits]
    cases found : (takeSign rest).2.takeWhile Char.isDigit with
    | nil =>
        rw [List.length_nil, Nat.add_zero, if_neg (Nat.lt_irrefl _), List.isEmpty_nil, if_pos rfl,
          exponentSpelling, List.append_nil]
    | cons digit others =>
        rw [if_pos (by rw [List.length_cons]; omega), List.isEmpty_cons, if_neg Bool.false_ne_true,
          exponentSpelling, ← found, ← byteLength_digits, ← byteLength_append]
        simp
  · rw [markless, taken, exponentSpelling, List.append_nil]
    rfl

theorem takeFraction_append (text : List Char) :
    fractionSpelling (takeFraction text).1 ++ (takeFraction text).2 = text := by
  rcases takeFraction_cases text with ⟨rest, rfl, taken⟩ | ⟨-, taken⟩
  · rw [taken, fractionSpelling, List.cons_append, List.takeWhile_append_dropWhile]
  · rw [taken]
    rfl

theorem takeExponent_append (text : List Char) :
    ∃ rest, exponentSpelling (takeExponent text) ++ rest = text := by
  rcases takeExponent_cases text with ⟨mark, rest, rfl, -, taken⟩ | ⟨-, taken⟩
  · rw [taken]
    split
    · exact ⟨_, rfl⟩
    · refine ⟨(takeSign rest).2.dropWhile Char.isDigit, ?_⟩
      rw [exponentSpelling, List.cons_append, List.cons_append, List.append_assoc,
        List.takeWhile_append_dropWhile, takeSign_append]
  · rw [taken]
    exact ⟨_, rfl⟩

theorem spelling_eq (literal : RealLiteral) :
    literal.spelling = literal.sign.toList ++ literal.whole ++
      fractionSpelling literal.fraction ++ exponentSpelling literal.exponent := by
  rw [RealLiteral.spelling]
  cases literal.fraction <;> cases literal.exponent <;> rfl

/-- The parts of a text that make up the real at its start, whether or not it is one. -/
theorem realLiteral?_parts (text : List Char) : ∃ sign digits fraction rest,
    takeSign text = (sign, digits) ∧
      takeFraction (digits.dropWhile Char.isDigit) = (fraction, rest) ∧
      text = sign.toList ++ digits ∧
      text = sign.toList ++ digits.takeWhile Char.isDigit ++ digits.dropWhile Char.isDigit ∧
      text = sign.toList ++ digits.takeWhile Char.isDigit ++ fractionSpelling fraction ++ rest ∧
      realLiteral? text =
        if (digits.takeWhile Char.isDigit).isEmpty && (fraction.getD []).isEmpty then none
        else some ⟨sign, digits.takeWhile Char.isDigit, fraction, takeExponent rest⟩ := by
  have signing := takeSign_append text
  cases signed : takeSign text with
  | mk sign digits =>
      have pointing := takeFraction_append (digits.dropWhile Char.isDigit)
      cases pointed : takeFraction (digits.dropWhile Char.isDigit) with
      | mk fraction rest =>
          rw [signed] at signing
          rw [pointed] at pointing
          dsimp only at signing pointing
          have whole : text = sign.toList ++ digits.takeWhile Char.isDigit ++
              digits.dropWhile Char.isDigit := by
            rw [List.append_assoc, List.takeWhile_append_dropWhile, signing]
          refine ⟨sign, digits, fraction, rest, rfl, pointed, signing.symm, whole, ?_, ?_⟩
          · rw [List.append_assoc _ _ rest, pointing]
            exact whole
          · unfold realLiteral?
            rw [signed]
            dsimp only
            rw [pointed]

/-- A real stands at the start of the text from which it was read. -/
theorem spelling_append {text : List Char} {literal : RealLiteral}
    (read : realLiteral? text = some literal) : ∃ rest, literal.spelling ++ rest = text := by
  obtain ⟨sign, digits, fraction, rest, -, -, -, -, whole, literals⟩ := realLiteral?_parts text
  rw [literals] at read
  split at read
  next => contradiction
  next =>
    obtain rfl := Option.some.inj read
    obtain ⟨behind, exponent⟩ := takeExponent_append rest
    refine ⟨behind, ?_⟩
    rw [spelling_eq, List.append_assoc _ _ behind, exponent]
    exact whole.symm

theorem realEnd_eq [LawfulMonad m] (text : List Char) :
    realEnd (encoded text) =
      (pure ((realLiteral? text).map fun literal => byteLength literal.spelling) :
        Guarded m (Option Nat)) := by
  obtain ⟨sign, digits, fraction, rest, signed, pointed, atSign, atDigits, atPoint, literals⟩ :=
    realLiteral?_parts text
  have start := byteLength_append_sign [] text
  rw [List.nil_append, byteLength, Nat.zero_add, signed] at start
  have wholeRun := runEnd_eq (m := m) isAscii_isDigit sign.toList digits
  have wholeLength := byteLength_append sign.toList (digits.takeWhile Char.isDigit)
  have fractionRun := fractionEnd_eq (m := m) (sign.toList ++ digits.takeWhile Char.isDigit)
    (digits.dropWhile Char.isDigit)
  have exponentRun := exponentEnd_eq (m := m)
    (sign.toList ++ digits.takeWhile Char.isDigit ++ fractionSpelling fraction) rest
  rw [← atSign] at wholeRun
  rw [← atDigits, pointed] at fractionRun
  rw [← atPoint] at exponentRun
  rw [byteLength_digits] at wholeLength
  unfold realEnd
  rw [head?_encoded isAscii_isSign]
  dsimp only
  rw [← start, wholeRun, pure_bind, wholeLength, minus_eq (Nat.le_add_right _ _), pure_bind,
    Nat.add_sub_cancel_left, ← wholeLength, fractionRun, pure_bind, literals]
  dsimp only
  rw [exponentRun, pure_bind]
  have empty : ((digits.takeWhile Char.isDigit).isEmpty && (fraction.getD []).isEmpty) = true ↔
      (digits.takeWhile Char.isDigit).length + (fraction.getD []).length = 0 := by
    rw [Bool.and_eq_true, List.isEmpty_iff_length_eq_zero, List.isEmpty_iff_length_eq_zero]
    omega
  by_cases nothing : (digits.takeWhile Char.isDigit).length + (fraction.getD []).length = 0
  · rw [if_pos nothing, if_pos (empty.mpr nothing), Option.map_none]
  · rw [if_neg nothing, if_neg fun both => nothing (empty.mp both), Option.map_some, spelling_eq]

/-- Reading a real never missteps, and it finds the characters of the real. -/
theorem realSpelling_eq [LawfulMonad m] (text : List Char) :
    realSpelling text =
      (pure ((realLiteral? text).map RealLiteral.spelling) : Guarded m (Option (List Char))) := by
  unfold realSpelling
  rw [realEnd_eq, pure_bind]
  cases read : realLiteral? text with
  | none => rfl
  | some literal =>
      obtain ⟨rest, whole⟩ := spelling_append read
      have spelled := cut_eq (m := m) [] literal.spelling rest
      rw [List.nil_append, whole, byteLength] at spelled
      rw [Option.map_some]
      dsimp only
      rw [spelled, pure_bind]
      rfl

end Guarded

end CountedHeap
