import CountedHeap.Proofs.LeadingIntegers
import Mathlib.Computability.Language

/-!
Contract: the real at the start of a text, against its grammar.

The grammar is `[+-] D* [. D*] [(e|E) [+-] D+]`, with at least one digit before the exponent.  No
part of it begins with a character that can go on the part before.  So where a real is followed by
more characters, only its last part can grow, and taking each part as long as it can be finds the
longest real.

Owns:
- the grammar as a language, the grammar of what parsers of numbers accept, and that they are one;
- what is read where a real is followed by anything;
- the reading that hands the longest real to a parser, which may refuse it and may have effects.

Does not own: the scan by bytes, or how a value is rounded.
-/

namespace CountedHeap

namespace Decimal

open scoped Computability

/-! ## The grammar -/

namespace Grammar

/-- The texts of one character that passes a test. -/
def one (accepts : Char → Bool) : Language Char :=
  {text | ∃ character, accepts character = true ∧ text = [character]}

/-- A part that may be missing. -/
def optional (part : Language Char) : Language Char :=
  1 + part

def sign : Language Char :=
  optional (one isSign)

def point : Language Char :=
  one (· == '.')

/-- Any number of digits. -/
def digits : Language Char :=
  (one Char.isDigit)∗

/-- At least one digit. -/
def someDigits : Language Char :=
  one Char.isDigit * digits

/-- An exponent or none: `[(e|E) [+-] D+]`. -/
def exponent : Language Char :=
  optional (one isMark * (sign * someDigits))

/-- The texts that have a digit. -/
def withDigit : Language Char :=
  {text | ∃ character ∈ text, character.isDigit = true}

/-- What may stand at the start of a text: `[+-] D* [. D*] [(e|E) [+-] D+]`, with a digit before the
exponent. -/
def real : Language Char :=
  (sign * (digits * optional (point * digits)) ⊓ withDigit) * exponent

/-- What a parser of numbers accepts: `[+-] (D+ | D+ . D* | D* . D+) [(e|E) [+-] D+]`. -/
def number : Language Char :=
  sign * ((someDigits + someDigits * (point * digits) + digits * (point * someDigits)) * exponent)

end Grammar

/-- The parts of an exponent are what they are called. -/
structure ExponentPart.Formed (part : ExponentPart) : Prop where
  mark : isMark part.mark = true
  sign : ∀ character ∈ part.sign, isSign character = true
  nonempty : part.digits ≠ []
  digits : ∀ character ∈ part.digits, character.isDigit = true

/-- The parts of a real are what they are called, and there is a digit before the exponent. -/
structure RealLiteral.Formed (literal : RealLiteral) : Prop where
  sign : ∀ character ∈ literal.sign, isSign character = true
  whole : ∀ character ∈ literal.whole, character.isDigit = true
  fraction : ∀ digits ∈ literal.fraction, ∀ character ∈ digits, character.isDigit = true
  significant : literal.significant ≠ []
  exponent : ∀ part ∈ literal.exponent, part.Formed

namespace Grammar

open Guarded (fractionSpelling exponentSpelling)

variable {text : List Char}

theorem mem_sign : text ∈ sign ↔
    ∃ sign : Option Char, (∀ character ∈ sign, isSign character = true) ∧ sign.toList = text := by
  constructor
  · rintro (rfl | ⟨character, isSigned, rfl⟩)
    · exact ⟨none, nofun, rfl⟩
    · exact ⟨some character, fun _ same => Option.some.inj same ▸ isSigned, rfl⟩
  · rintro ⟨sign, areSign, rfl⟩
    cases sign with
    | none => exact .inl rfl
    | some character => exact .inr ⟨character, areSign character rfl, rfl⟩

theorem mem_digits : text ∈ digits ↔ ∀ character ∈ text, character.isDigit = true := by
  constructor
  · rintro ⟨parts, rfl, single⟩ character member
    obtain ⟨part, inside, among⟩ := List.mem_flatten.mp member
    obtain ⟨digit, isDigit, rfl⟩ := single part inside
    exact List.mem_singleton.mp among ▸ isDigit
  · intro areDigits
    have joined : text = (text.map fun digit => [digit]).flatten :=
      ((List.flatMap_pure_eq_map id text).trans (List.map_id text)).symm
    refine ⟨text.map fun digit => [digit], joined, ?_⟩
    intro part inside
    obtain ⟨digit, member, rfl⟩ := List.mem_map.mp inside
    exact ⟨digit, areDigits digit member, rfl⟩

theorem mem_someDigits : text ∈ someDigits ↔
    text ≠ [] ∧ ∀ character ∈ text, character.isDigit = true := by
  constructor
  · rintro ⟨_, ⟨first, isDigit, rfl⟩, rest, others, rfl⟩
    exact ⟨List.cons_ne_nil _ _, List.forall_mem_cons.mpr ⟨isDigit, mem_digits.mp others⟩⟩
  · rintro ⟨nonempty, areDigits⟩
    obtain ⟨first, rest, rfl⟩ := List.exists_cons_of_ne_nil nonempty
    obtain ⟨isDigit, others⟩ := List.forall_mem_cons.mp areDigits
    exact ⟨_, ⟨first, isDigit, rfl⟩, rest, mem_digits.mpr others, rfl⟩

theorem mem_fraction : text ∈ optional (point * digits) ↔
    ∃ fraction : Option (List Char),
      (∀ digits ∈ fraction, ∀ character ∈ digits, character.isDigit = true) ∧
        fractionSpelling fraction = text := by
  constructor
  · rintro (rfl | ⟨_, ⟨mark, isPoint, rfl⟩, run, areDigits, rfl⟩)
    · exact ⟨none, nofun, rfl⟩
    · refine ⟨some run, fun _ same => Option.some.inj same ▸ mem_digits.mp areDigits, ?_⟩
      rw [eq_of_beq isPoint]
      rfl
  · rintro ⟨fraction, areDigits, rfl⟩
    cases fraction with
    | none => exact .inl rfl
    | some run => exact .inr ⟨_, ⟨'.', rfl, rfl⟩, run, mem_digits.mpr (areDigits run rfl), rfl⟩

theorem mem_exponent : text ∈ exponent ↔
    ∃ exponent : Option ExponentPart,
      (∀ part ∈ exponent, part.Formed) ∧ exponentSpelling exponent = text := by
  constructor
  · rintro (rfl | ⟨_, ⟨mark, marked, rfl⟩, _, ⟨_, signed, run, digits, rfl⟩, rfl⟩)
    · exact ⟨none, nofun, rfl⟩
    · obtain ⟨sign, areSign, rfl⟩ := mem_sign.mp signed
      obtain ⟨nonempty, areDigits⟩ := mem_someDigits.mp digits
      have formed : ExponentPart.Formed ⟨mark, sign, run⟩ := ⟨marked, areSign, nonempty, areDigits⟩
      exact ⟨some ⟨mark, sign, run⟩, fun _ same => Option.some.inj same ▸ formed, rfl⟩
  · rintro ⟨exponent, formed, rfl⟩
    cases exponent with
    | none => exact .inl rfl
    | some part =>
        obtain ⟨marked, areSign, nonempty, areDigits⟩ := formed part rfl
        exact .inr ⟨_, ⟨part.mark, marked, rfl⟩, _, ⟨_, mem_sign.mpr ⟨part.sign, areSign, rfl⟩, _,
          mem_someDigits.mpr ⟨nonempty, areDigits⟩, rfl⟩, rfl⟩

/-- Neither the sign nor the point is a digit. -/
theorem mem_withDigit {sign : Option Char} {whole : List Char} {fraction : Option (List Char)}
    (areSign : ∀ character ∈ sign, isSign character = true)
    (isWhole : ∀ character ∈ whole, character.isDigit = true)
    (isFraction : ∀ digits ∈ fraction, ∀ character ∈ digits, character.isDigit = true) :
    sign.toList ++ (whole ++ fractionSpelling fraction) ∈ withDigit ↔
      whole ++ fraction.getD [] ≠ [] := by
  constructor
  · rintro ⟨digit, member, isDigit⟩ nothing
    obtain ⟨rfl, noFraction⟩ := List.append_eq_nil_iff.mp nothing
    rcases List.mem_append.mp member with inSign | inFraction
    · have isSigned := areSign digit (Option.mem_toList.mp inSign)
      exact absurd isSigned (ne_true_of_eq_false (isSign_eq_false_of_isDigit isDigit))
    · cases fraction with
      | none => exact List.not_mem_nil inFraction
      | some run =>
          obtain rfl : run = [] := noFraction
          obtain rfl := List.mem_singleton.mp inFraction
          exact absurd isDigit (by decide)
  · intro significant
    obtain ⟨digit, member⟩ := List.exists_mem_of_ne_nil _ significant
    rcases List.mem_append.mp member with inWhole | inFraction
    · exact ⟨digit, List.mem_append_right _ (List.mem_append_left _ inWhole), isWhole digit inWhole⟩
    · cases fraction with
      | none => contradiction
      | some run =>
          exact ⟨digit, List.mem_append_right _ (List.mem_append_right _ (.tail _ inFraction)),
            isFraction run rfl digit inFraction⟩

/-- The language holds the spellings of the literals whose parts are what they are called. -/
theorem mem_real : text ∈ real ↔
    ∃ literal : RealLiteral, literal.Formed ∧ literal.spelling = text := by
  constructor
  · rintro ⟨_, ⟨⟨_, signed, _, ⟨whole, areDigits, _, pointed, rfl⟩, rfl⟩, digit⟩, _, scaled, rfl⟩
    have isWhole := mem_digits.mp areDigits
    obtain ⟨sign, areSign, rfl⟩ := mem_sign.mp signed
    obtain ⟨fraction, isFraction, rfl⟩ := mem_fraction.mp pointed
    obtain ⟨exponent, formed, rfl⟩ := mem_exponent.mp scaled
    have significant := (mem_withDigit areSign isWhole isFraction).mp digit
    refine ⟨⟨sign, whole, fraction, exponent⟩,
      ⟨areSign, isWhole, isFraction, significant, formed⟩, ?_⟩
    rw [Guarded.spelling_eq, List.append_assoc sign.toList]
  · rintro ⟨literal, formed, rfl⟩
    rw [Guarded.spelling_eq, List.append_assoc literal.sign.toList]
    refine Language.append_mem_mul
      ⟨Language.append_mem_mul ?_ (Language.append_mem_mul ?_ ?_), ?_⟩ ?_
    · exact mem_sign.mpr ⟨literal.sign, formed.sign, rfl⟩
    · exact mem_digits.mpr formed.whole
    · exact mem_fraction.mpr ⟨literal.fraction, formed.fraction, rfl⟩
    · exact (mem_withDigit formed.sign formed.whole formed.fraction).mpr formed.significant
    · exact mem_exponent.mpr ⟨literal.exponent, formed.exponent, rfl⟩

theorem mem_point : text ∈ point ↔ text = ['.'] := by
  constructor
  · rintro ⟨mark, isPoint, rfl⟩
    rw [eq_of_beq isPoint]
  · rintro rfl
    exact ⟨'.', rfl, rfl⟩

/-- Digits with a point or without, at least one of them. -/
theorem mem_unscaled :
    text ∈ someDigits + someDigits * (point * digits) + digits * (point * someDigits) ↔
      ∃ (whole : List Char) (fraction : Option (List Char)),
        (∀ character ∈ whole, character.isDigit = true) ∧
        (∀ digits ∈ fraction, ∀ character ∈ digits, character.isDigit = true) ∧
        whole ++ fraction.getD [] ≠ [] ∧ whole ++ fractionSpelling fraction = text := by
  constructor
  · rintro ((isWhole | ⟨whole, isWhole, _, ⟨_, atPoint, run, isRun, rfl⟩, rfl⟩) |
      ⟨whole, isWhole, _, ⟨_, atPoint, run, isRun, rfl⟩, rfl⟩)
    · obtain ⟨nonempty, areDigits⟩ := mem_someDigits.mp isWhole
      refine ⟨text, none, areDigits, nofun, ?_, List.append_nil text⟩
      rw [Option.getD_none, List.append_nil]
      exact nonempty
    · obtain ⟨nonempty, areDigits⟩ := mem_someDigits.mp isWhole
      obtain rfl := mem_point.mp atPoint
      exact ⟨whole, some run, areDigits, fun _ same => Option.some.inj same ▸ mem_digits.mp isRun,
        List.append_ne_nil_of_left_ne_nil nonempty run, rfl⟩
    · obtain ⟨nonempty, areDigits⟩ := mem_someDigits.mp isRun
      obtain rfl := mem_point.mp atPoint
      exact ⟨whole, some run, mem_digits.mp isWhole, fun _ same => Option.some.inj same ▸ areDigits,
        List.append_ne_nil_of_right_ne_nil whole nonempty, rfl⟩
  · rintro ⟨whole, fraction, isWhole, isFraction, significant, rfl⟩
    cases fraction with
    | none =>
        rw [Option.getD_none, List.append_nil] at significant
        rw [fractionSpelling, List.append_nil]
        exact .inl (.inl (mem_someDigits.mpr ⟨significant, isWhole⟩))
    | some run =>
        have isRun := isFraction run rfl
        have atPoint : ['.'] ∈ point := mem_point.mpr rfl
        by_cases bare : whole = []
        · rw [bare, Option.getD_some, List.nil_append] at significant
          exact .inr (Language.append_mem_mul (mem_digits.mpr isWhole)
            (Language.append_mem_mul atPoint (mem_someDigits.mpr ⟨significant, isRun⟩)))
        · exact .inl (.inr (Language.append_mem_mul (mem_someDigits.mpr ⟨bare, isWhole⟩)
            (Language.append_mem_mul atPoint (mem_digits.mpr isRun))))

theorem mem_number : text ∈ number ↔
    ∃ literal : RealLiteral, literal.Formed ∧ literal.spelling = text := by
  constructor
  · rintro ⟨_, signed, _, ⟨_, unscaled, _, scaled, rfl⟩, rfl⟩
    obtain ⟨sign, areSign, rfl⟩ := mem_sign.mp signed
    obtain ⟨whole, fraction, isWhole, isFraction, significant, rfl⟩ := mem_unscaled.mp unscaled
    obtain ⟨exponent, formed, rfl⟩ := mem_exponent.mp scaled
    refine ⟨⟨sign, whole, fraction, exponent⟩,
      ⟨areSign, isWhole, isFraction, significant, formed⟩, ?_⟩
    rw [Guarded.spelling_eq, List.append_assoc sign.toList, List.append_assoc]
  · rintro ⟨literal, formed, rfl⟩
    rw [Guarded.spelling_eq, List.append_assoc literal.sign.toList, List.append_assoc]
    refine Language.append_mem_mul ?_ (Language.append_mem_mul ?_ ?_)
    · exact mem_sign.mpr ⟨literal.sign, formed.sign, rfl⟩
    · exact mem_unscaled.mpr ⟨literal.whole, literal.fraction, formed.whole, formed.fraction,
        formed.significant, rfl⟩
    · exact mem_exponent.mpr ⟨literal.exponent, formed.exponent, rfl⟩

/-- The reals at the start of a text are the numbers as parsers take them. -/
theorem number_eq_real : number = real :=
  Language.ext fun _ => mem_number.trans mem_real.symm

end Grammar

/-! ## Reading on behind a real -/

namespace RealLiteral

open Guarded (fractionSpelling exponentSpelling)

/-- What is read if a real is followed by more characters.  Only its last part can grow, and what
was missing behind that part may be found. -/
def followedBy (literal : RealLiteral) (rest : List Char) : RealLiteral :=
  match literal.exponent, literal.fraction with
  | some part, _ =>
      { literal with
        exponent := some { part with digits := part.digits ++ rest.takeWhile Char.isDigit } }
  | none, some digits =>
      { literal with
        fraction := some (digits ++ rest.takeWhile Char.isDigit)
        exponent := takeExponent (rest.dropWhile Char.isDigit) }
  | none, none =>
      let behind := takeFraction (rest.dropWhile Char.isDigit)
      { literal with
        whole := literal.whole ++ rest.takeWhile Char.isDigit
        fraction := behind.1
        exponent := takeExponent behind.2 }

theorem followedBy_nil (literal : RealLiteral) : literal.followedBy [] = literal := by
  rcases literal with ⟨sign, whole, _ | digits, _ | part⟩
  all_goals simp [followedBy, takeFraction, takeExponent]

/-- Reading on loses nothing. -/
theorem spelling_prefix_followedBy (literal : RealLiteral) (rest : List Char) :
    literal.spelling <+: (literal.followedBy rest).spelling := by
  obtain ⟨sign, whole, fraction, exponent⟩ := literal
  unfold followedBy
  rw [Guarded.spelling_eq, Guarded.spelling_eq]
  cases exponent with
  | some part =>
      refine ⟨rest.takeWhile Char.isDigit, ?_⟩
      simp only [exponentSpelling, List.append_assoc, List.cons_append]
  | none =>
      cases fraction with
      | some digits =>
          refine ⟨rest.takeWhile Char.isDigit ++
            exponentSpelling (takeExponent (rest.dropWhile Char.isDigit)), ?_⟩
          simp only [fractionSpelling, exponentSpelling, List.append_assoc, List.cons_append,
            List.nil_append]
      | none =>
          refine ⟨rest.takeWhile Char.isDigit ++
            (fractionSpelling (takeFraction (rest.dropWhile Char.isDigit)).1 ++
              exponentSpelling (takeExponent (takeFraction (rest.dropWhile Char.isDigit)).2)), ?_⟩
          simp only [fractionSpelling, exponentSpelling, List.append_assoc, List.nil_append]

end RealLiteral

/-- A run of digits begins with a digit. -/
theorem head?_any_digits {accepts : Char → Bool} {digits : List Char} (nonempty : digits ≠ [])
    (areDigits : ∀ character ∈ digits, character.isDigit = true)
    (refuses : ∀ character : Char, character.isDigit = true → accepts character = false)
    (rest : List Char) : (digits ++ rest).head?.any accepts = false := by
  obtain ⟨first, others, rfl⟩ := List.exists_cons_of_ne_nil nonempty
  exact refuses first (areDigits first List.mem_cons_self)

/-- An exponent begins with its mark. -/
theorem ExponentPart.Formed.head?_any {part : ExponentPart} (formed : part.Formed)
    {accepts : Char → Bool} (small : accepts 'e' = false) (large : accepts 'E' = false)
    (rest : List Char) :
    (Guarded.exponentSpelling (some part) ++ rest).head?.any accepts = false := by
  rw [Guarded.exponentSpelling, List.cons_append, List.cons_append, List.head?_cons,
    Option.any_some]
  rcases Bool.or_eq_true_iff.mp formed.mark with isSmall | isLarge
  · rw [eq_of_beq isSmall, small]
  · rw [eq_of_beq isLarge, large]

theorem takeExponent_followed {part : ExponentPart} (formed : part.Formed) (rest : List Char) :
    takeExponent (Guarded.exponentSpelling (some part) ++ rest) =
      some { part with digits := part.digits ++ rest.takeWhile Char.isDigit } := by
  have unsigned := head?_any_digits formed.nonempty formed.digits
    (fun _ => isSign_eq_false_of_isDigit) rest
  have signing := takeSign_eq formed.sign fun _ => unsigned
  have run : (part.digits ++ rest).takeWhile Char.isDigit =
      part.digits ++ rest.takeWhile Char.isDigit := List.takeWhile_append_of_pos formed.digits
  rw [Guarded.exponentSpelling, List.cons_append, List.cons_append, List.append_assoc]
  rcases Guarded.takeExponent_cases (part.mark :: (part.sign.toList ++ (part.digits ++ rest))) with
    ⟨mark, behind, same, -, taken⟩ | ⟨unmarked, -⟩
  · obtain ⟨rfl, rfl⟩ := List.cons.inj same
    have nonempty : (part.digits ++ rest.takeWhile Char.isDigit).isEmpty = false :=
      List.isEmpty_eq_false_iff.mpr (List.append_ne_nil_of_left_ne_nil formed.nonempty _)
    rw [taken, signing]
    dsimp only
    rw [run, nonempty, if_neg Bool.false_ne_true]
  · exact absurd formed.mark (ne_true_of_eq_false unmarked)

theorem takeFraction_point {digits : List Char}
    (areDigits : ∀ character ∈ digits, character.isDigit = true) (rest : List Char) :
    takeFraction (Guarded.fractionSpelling (some digits) ++ rest) =
      (some (digits ++ rest.takeWhile Char.isDigit), rest.dropWhile Char.isDigit) := by
  rw [Guarded.fractionSpelling, List.cons_append, takeFraction,
    List.takeWhile_append_of_pos areDigits, List.dropWhile_append_of_pos areDigits]

/-- What is read from a text, part by part. -/
theorem realLiteral?_eq_some {text unsigned rest : List Char} {sign : Option Char}
    {whole : List Char} {fraction : Option (List Char)} {exponent : Option ExponentPart}
    (signing : takeSign text = (sign, unsigned))
    (run : unsigned.takeWhile Char.isDigit = whole)
    (pointing : takeFraction (unsigned.dropWhile Char.isDigit) = (fraction, rest))
    (scaling : takeExponent rest = exponent) (significant : whole ++ fraction.getD [] ≠ []) :
    realLiteral? text = some ⟨sign, whole, fraction, exponent⟩ := by
  have present : ¬(whole.isEmpty && (fraction.getD []).isEmpty) = true := by
    rw [Bool.and_eq_true, List.isEmpty_iff, List.isEmpty_iff, ← List.append_eq_nil_iff]
    exact significant
  unfold realLiteral?
  rw [signing]
  dsimp only
  rw [run, pointing]
  dsimp only
  rw [if_neg present, scaling]

theorem isSign_of_takeSign (text : List Char) :
    ∀ character ∈ (takeSign text).1, isSign character = true := by
  intro character taken
  rcases takeSign_cases text with ⟨sign, rest, -, isSigned, cut⟩ | ⟨-, cut⟩
  · rw [cut] at taken
    exact Option.some.inj taken ▸ isSigned
  · rw [cut] at taken
    contradiction

theorem isDigit_of_takeFraction (text : List Char) :
    ∀ digits ∈ (takeFraction text).1, ∀ character ∈ digits, character.isDigit = true := by
  intro digits taken
  rcases Guarded.takeFraction_cases text with ⟨rest, -, cut⟩ | ⟨-, cut⟩
  · rw [cut] at taken
    obtain rfl := Option.some.inj taken
    exact fun _ member => List.mem_takeWhile_imp member
  · rw [cut] at taken
    contradiction

theorem formed_takeExponent (text : List Char) : ∀ part ∈ takeExponent text, part.Formed := by
  intro part taken
  rcases Guarded.takeExponent_cases text with ⟨mark, rest, -, marked, cut⟩ | ⟨-, cut⟩
  · rw [cut] at taken
    split at taken
    next => contradiction
    next nonempty =>
      obtain rfl := Option.some.inj taken
      exact ⟨marked, isSign_of_takeSign rest, mt List.isEmpty_iff.mpr nonempty,
        fun _ member => List.mem_takeWhile_imp member⟩
  · rw [cut] at taken
    contradiction

namespace RealLiteral

open Guarded (fractionSpelling exponentSpelling)

/-- Behind the place of the sign there is a digit or a point. -/
theorem Formed.unsigned {literal : RealLiteral} (formed : literal.Formed) (rest : List Char) :
    (literal.whole ++ (fractionSpelling literal.fraction ++ rest)).head?.any isSign = false := by
  by_cases bare : literal.whole = []
  · cases present : literal.fraction with
    | none =>
        have significant := formed.significant
        rw [RealLiteral.significant, bare, present] at significant
        contradiction
    | some digits =>
        rw [bare]
        rfl
  · exact head?_any_digits bare formed.whole (fun _ => isSign_eq_false_of_isDigit) _

/-- In front of an exponent a fraction is read as it is spelled. -/
theorem takeFraction_exponent {part : ExponentPart} (formed : part.Formed)
    {fraction : Option (List Char)}
    (areDigits : ∀ digits ∈ fraction, ∀ character ∈ digits, character.isDigit = true)
    (rest : List Char) :
    takeFraction (fractionSpelling fraction ++ (exponentSpelling (some part) ++ rest)) =
      (fraction, exponentSpelling (some part) ++ rest) := by
  cases fraction with
  | none =>
      rcases Guarded.takeFraction_cases (exponentSpelling (some part) ++ rest) with
        ⟨behind, pointed, -⟩ | ⟨-, taken⟩
      · have noPoint : (exponentSpelling (some part) ++ rest).head?.any (· == '.') = false :=
          formed.head?_any rfl rfl rest
        rw [pointed] at noPoint
        contradiction
      · exact taken
  | some digits =>
      have noDigit : (exponentSpelling (some part) ++ rest).head?.any Char.isDigit = false :=
        formed.head?_any rfl rfl rest
      have run := @takeWhile_eq_of_head Char.isDigit [] _ nofun noDigit
      have behind := @dropWhile_eq_of_head Char.isDigit [] _ nofun noDigit
      rw [List.nil_append] at run behind
      rw [takeFraction_point (areDigits digits rfl), run, behind, List.append_nil]

/-- A literal is read back from its spelling, and so is what follows it, as far as it belongs to
a longer literal. -/
theorem Formed.read_followedBy {literal : RealLiteral} (formed : literal.Formed)
    (rest : List Char) :
    realLiteral? (literal.spelling ++ rest) = some (literal.followedBy rest) := by
  obtain ⟨sign, whole, fraction, exponent⟩ := literal
  have signing := takeSign_eq formed.sign fun _ =>
    formed.unsigned (exponentSpelling exponent ++ rest)
  obtain ⟨-, areDigits, areFraction, significant, areExponent⟩ := formed
  dsimp only at signing areDigits areFraction areExponent
  rw [RealLiteral.significant] at significant
  rw [Guarded.spelling_eq, List.append_assoc, List.append_assoc, List.append_assoc]
  cases exponent with
  | some part =>
      have formed := areExponent part rfl
      -- the part behind the whole digits begins with the point or the mark
      have noDigit : (fractionSpelling fraction ++
          (exponentSpelling (some part) ++ rest)).head?.any Char.isDigit = false := by
        cases fraction with
        | none => exact formed.head?_any rfl rfl rest
        | some digits => rfl
      have pointing := takeFraction_exponent formed areFraction rest
      rw [← dropWhile_eq_of_head areDigits noDigit] at pointing
      exact realLiteral?_eq_some signing (takeWhile_eq_of_head areDigits noDigit) pointing
        (takeExponent_followed formed rest) significant
  | none =>
      rw [exponentSpelling, List.nil_append] at signing ⊢
      cases fraction with
      | some digits =>
          have noDigit : (fractionSpelling (some digits) ++ rest).head?.any Char.isDigit = false :=
            rfl
          have pointing := takeFraction_point (areFraction digits rfl) rest
          rw [← dropWhile_eq_of_head areDigits noDigit] at pointing
          have run := takeWhile_eq_of_head areDigits noDigit
          refine realLiteral?_eq_some signing run pointing rfl ?_
          rw [Option.getD_some, ← List.append_assoc]
          exact List.append_ne_nil_of_left_ne_nil significant _
      | none =>
          rw [fractionSpelling, List.nil_append] at signing ⊢
          refine realLiteral?_eq_some signing (List.takeWhile_append_of_pos areDigits)
            (congrArg takeFraction (List.dropWhile_append_of_pos areDigits)) rfl ?_
          rw [Option.getD_none, List.append_nil] at significant
          rw [List.append_assoc]
          exact List.append_ne_nil_of_left_ne_nil significant _

theorem Formed.read_spelling {literal : RealLiteral} (formed : literal.Formed) :
    realLiteral? literal.spelling = some literal := by
  have read := formed.read_followedBy []
  rw [List.append_nil, followedBy_nil] at read
  exact read

/-- The parts of what is read are what they are called. -/
theorem formed_of_read {text : List Char} {literal : RealLiteral}
    (read : realLiteral? text = some literal) : literal.Formed := by
  obtain ⟨sign, digits, fraction, rest, signing, pointing, -, -, -, literals⟩ :=
    Guarded.realLiteral?_parts text
  have areSign := isSign_of_takeSign text
  have areDigits := isDigit_of_takeFraction (digits.dropWhile Char.isDigit)
  rw [signing] at areSign
  rw [pointing] at areDigits
  rw [literals] at read
  split at read
  next => contradiction
  next present =>
    obtain rfl := Option.some.inj read
    refine ⟨areSign, fun _ member => List.mem_takeWhile_imp member, areDigits, ?_,
      formed_takeExponent rest⟩
    rw [Bool.and_eq_true, List.isEmpty_iff, List.isEmpty_iff, ← List.append_eq_nil_iff] at present
    exact present

end RealLiteral

/-! ## The longest real -/

/-- The longest start of a text that lies in a language. -/
structure LongestStart (language : Language Char) (text front : List Char) : Prop where
  mem : front ∈ language
  start : front <+: text
  longest : ∀ other ∈ language, other <+: text → other.length ≤ front.length

theorem LongestStart.unique {language : Language Char} {text front front' : List Char}
    (first : LongestStart language text front) (second : LongestStart language text front') :
    front = front' := by
  have shorter := second.longest front first.mem first.start
  have longer := first.longest front' second.mem second.start
  have within := List.prefix_of_prefix_length_le first.start second.start shorter
  exact within.eq_of_length_le longer

/-- What is read is the longest real. -/
theorem longestStart_of_read {text : List Char} {literal : RealLiteral}
    (read : realLiteral? text = some literal) :
    LongestStart Grammar.real text literal.spelling := by
  refine ⟨Grammar.mem_real.mpr ⟨literal, RealLiteral.formed_of_read read, rfl⟩,
    Guarded.spelling_append read, ?_⟩
  intro other isReal isStart
  obtain ⟨shorter, formed, rfl⟩ := Grammar.mem_real.mp isReal
  obtain ⟨rest, rfl⟩ := isStart
  obtain rfl := Option.some.inj (read.symm.trans (formed.read_followedBy rest))
  exact (shorter.spelling_prefix_followedBy rest).length_le

/-- Where nothing is read there is no real. -/
theorem not_start_of_read {text : List Char} (read : realLiteral? text = none) :
    ∀ front ∈ Grammar.real, ¬front <+: text := by
  rintro front isReal ⟨rest, rfl⟩
  obtain ⟨literal, formed, rfl⟩ := Grammar.mem_real.mp isReal
  rw [formed.read_followedBy rest] at read
  contradiction

end Decimal

/-! ## Handing it to a parser -/

namespace Guarded

variable {m : Type → Type} [Monad m]

/-- The real at the start of a text, as a parser reads it.  What the parser refuses counts as
zero, as does a text without a real. -/
def realPrefix (parser : List Char → m (Option Float)) (text : String) : Guarded m Float := do
  match ← realSpelling (Text.trimStart text.toList) with
  | none => return 0
  | some spelling =>
      let answer ← parser spelling
      return answer.getD 0

variable [LawfulMonad m] {text : String}

/-- The parser is asked once, about the characters of what is read. -/
theorem realPrefix_of_read {literal : Decimal.RealLiteral}
    (read : Decimal.realLiteral? (Text.trimStart text.toList) = some literal)
    (parser : List Char → m (Option Float)) :
    realPrefix parser text = do
      let answer ← parser literal.spelling
      return answer.getD 0 := by
  rw [realPrefix, realSpelling_eq, pure_bind, read]
  rfl

/-- The parser is not asked where nothing is read. -/
theorem realPrefix_of_not_read
    (read : Decimal.realLiteral? (Text.trimStart text.toList) = none)
    (parser : List Char → m (Option Float)) : realPrefix parser text = pure 0 := by
  rw [realPrefix, realSpelling_eq, pure_bind, read]
  rfl

/-- What the parser answers about it is what comes out. -/
theorem realPrefix_of_answer {literal : Decimal.RealLiteral}
    (read : Decimal.realLiteral? (Text.trimStart text.toList) = some literal)
    {parser : List Char → Option Float} {real : Float}
    (answered : parser literal.spelling = some real) :
    realPrefix (fun number => (pure (parser number) : m (Option Float))) text = pure real := by
  rw [realPrefix_of_read read, answered, liftM_pure, pure_bind, Option.getD_some]

end Guarded

namespace Decimal

/-- A parser that reads every real as its value. -/
def ReadsValues (parser : List Char → Option Float) : Prop :=
  ∀ literal : RealLiteral, literal.Formed → parser literal.spelling = some literal.value

/-- The value of a text that is one real from end to end. -/
def wholeReal? (text : List Char) : Option Float :=
  (realLiteral? text).bind fun literal =>
    if literal.spelling = text then some literal.value else none

theorem readsValues_wholeReal? : ReadsValues wholeReal? := by
  intro literal formed
  rw [wholeReal?, formed.read_spelling, Option.bind_some, if_pos rfl]

/-- With such a parser the reading is the one by characters. -/
theorem ReadsValues.realPrefix_eq {m : Type → Type} [Monad m] [LawfulMonad m]
    {parser : List Char → Option Float} (reads : ReadsValues parser) (text : String) :
    Guarded.realPrefix (fun number => (pure (parser number) : m (Option Float))) text =
      pure (realPrefix text) := by
  cases read : realLiteral? (Text.trimStart text.toList) with
  | none =>
      rw [Guarded.realPrefix_of_not_read read, realPrefix, read]
      rfl
  | some literal =>
      have answered := reads literal (RealLiteral.formed_of_read read)
      rw [Guarded.realPrefix_of_answer read answered, realPrefix, read]

/-- The blanks of a text can be cut off in one place only. -/
theorem trimStart_of_cut {text blanks body : List Char} (cut : blanks ++ body = text)
    (areBlank : ∀ character ∈ blanks, Text.isBlank character = true)
    (noBlank : body.head?.any Text.isBlank = false) : Text.trimStart text = body := by
  rw [← cut]
  exact dropWhile_eq_of_head areBlank noBlank

/-- Reading the real at the start of a text.

Behind the blanks of a text the scan by bytes ends, between two characters, at the end of the
longest real.  Its characters are a number as parsers take them, and a parser is asked about them
once, whatever else it does; if it accepts what it should, its answer is the result.  Where no real
stands, the result is zero and no parser is asked.  With a parser that reads every real as its value
this is the reading by characters. -/
theorem leading_real_is_longest {m : Type → Type} [Monad m] [LawfulMonad m] (text : String) :
    ∃ blanks body : List Char, blanks ++ body = text.toList ∧
      (∀ character ∈ blanks, Text.isBlank character = true) ∧
      body.head?.any Text.isBlank = false ∧
      ((∃ front, LongestStart Grammar.real body front ∧
          Guarded.realEnd (Text.encoded body) =
            (pure (some (Text.byteLength front)) : Guarded m (Option Nat)) ∧
          Text.isBoundary (Text.byteLength front) body = true ∧
          (∀ parser : List Char → m (Option Float),
            Guarded.realPrefix parser text = do
              let answer ← parser front
              return answer.getD 0) ∧
          front ∈ Grammar.number ∧
          (∀ parser : List Char → Option Float,
            (∀ number ∈ Grammar.number, (parser number).isSome = true) →
            ∃ real, parser front = some real ∧
              Guarded.realPrefix (fun number => (pure (parser number) : m (Option Float))) text =
                pure real) ∧
          ∃ literal : RealLiteral, literal.Formed ∧ literal.spelling = front ∧
            realPrefix text = literal.value) ∨
        (∀ front ∈ Grammar.real, ¬front <+: body) ∧
          (∀ parser : List Char → m (Option Float), Guarded.realPrefix parser text = pure 0) ∧
          realPrefix text = 0) ∧
      ∀ parser : List Char → Option Float, ReadsValues parser →
        Guarded.realPrefix (fun number => (pure (parser number) : m (Option Float))) text =
          pure (realPrefix text) := by
  refine ⟨text.toList.takeWhile Text.isBlank, Text.trimStart text.toList,
    List.takeWhile_append_dropWhile, fun _ member => List.mem_takeWhile_imp member,
    head?_any_dropWhile Text.isBlank _, ?_, fun parser reads => reads.realPrefix_eq text⟩
  cases read : realLiteral? (Text.trimStart text.toList) with
  | none =>
      refine .inr ⟨not_start_of_read read, Guarded.realPrefix_of_not_read read, ?_⟩
      rw [realPrefix, read]
      rfl
  | some literal =>
      have longest := longestStart_of_read read
      have formed := RealLiteral.formed_of_read read
      have isNumber : literal.spelling ∈ Grammar.number := by
        rw [Grammar.number_eq_real]
        exact longest.mem
      refine .inl ⟨literal.spelling, longest, ?_, ?_, Guarded.realPrefix_of_read read, isNumber, ?_,
        literal, formed, rfl, ?_⟩
      · rw [Guarded.realEnd_eq, read, Option.map_some]
      · obtain ⟨rest, whole⟩ := longest.start
        rw [← whole]
        exact Text.isBoundary_byteLength literal.spelling rest
      · intro parser accepts
        obtain ⟨real, answered⟩ := Option.isSome_iff_exists.mp (accepts _ isNumber)
        exact ⟨real, answered, Guarded.realPrefix_of_answer read answered⟩
      · rw [realPrefix, read]

/-- The literal `-.5e+3`. -/
def signedFraction : RealLiteral :=
  ⟨some '-', [], some ['5'], some ⟨'e', some '+', ['3']⟩⟩

/-- A fraction without whole digits, with both signs, is read up to the end of its exponent; the
mark behind it begins no second one.  A sign and a point are no real even in front of an exponent,
and then a parser that would abort the computation is not asked. -/
theorem signed_fraction_is_read :
    LongestStart Grammar.real "-.5e+3e".toList "-.5e+3".toList ∧
    (∀ number ∈ Grammar.number, (wholeReal? number).isSome = true) ∧
    wholeReal? "-.5e+3".toList = some (-500) ∧
    Guarded.realPrefix (fun number => (pure (wholeReal? number) : Id (Option Float)))
      " \t-.5e+3e" = pure (-500) ∧
    ReadsValues wholeReal? ∧ realPrefix " \t-.5e+3e" = -500 ∧
    (∀ front ∈ Grammar.real, ¬front <+: "+.e5".toList) ∧
    Guarded.realPrefix (fun _ => (none : Option (Option Float))) "+.e5" = pure 0 := by
  have read : realLiteral? "-.5e+3e".toList = some signedFraction := by decide
  have notRead : realLiteral? "+.e5".toList = none := by decide
  have value : signedFraction.value = -500 := by rfl
  have whole : wholeReal? "-.5e+3".toList = some (-500) := by
    rw [← value]
    exact readsValues_wholeReal? signedFraction (RealLiteral.formed_of_read read)
  have accepts : ∀ number ∈ Grammar.number, (wholeReal? number).isSome = true := by
    intro number isNumber
    obtain ⟨literal, formed, rfl⟩ := Grammar.mem_number.mp isNumber
    rw [readsValues_wholeReal? literal formed, Option.isSome_some]
  have here : LongestStart Grammar.real "-.5e+3e".toList "-.5e+3".toList :=
    longestStart_of_read read
  have nowhere := not_start_of_read notRead
  obtain ⟨blanks, body, cut, areBlank, noBlank, reading, same⟩ :=
    @leading_real_is_longest Id _ _ " \t-.5e+3e"
  have trimmed : Text.trimStart " \t-.5e+3e".toList = "-.5e+3e".toList := by decide
  obtain rfl := trimmed.symm.trans (trimStart_of_cut cut areBlank noBlank)
  have result : Guarded.realPrefix (fun number => (pure (wholeReal? number) : Id (Option Float)))
      " \t-.5e+3e" = pure (-500) := by
    rcases reading with ⟨front, longest, -, -, -, -, accepted, -⟩ | ⟨nothing, -⟩
    · obtain rfl := longest.unique here
      obtain ⟨real, answered, result⟩ := accepted wholeReal? accepts
      obtain rfl := Option.some.inj (answered.symm.trans whole)
      exact result
    · exact absurd here.start (nothing _ here.mem)
  have unasked : Guarded.realPrefix (fun _ => (none : Option (Option Float))) "+.e5" = pure 0 := by
    obtain ⟨_, body, cut, areBlank, noBlank, reading, -⟩ :=
      @leading_real_is_longest Option _ _ "+.e5"
    have trimmed : Text.trimStart "+.e5".toList = "+.e5".toList := by decide
    obtain rfl := trimmed.symm.trans (trimStart_of_cut cut areBlank noBlank)
    rcases reading with ⟨front, longest, -⟩ | ⟨-, unasked, -⟩
    · exact absurd longest.start (nowhere front longest.mem)
    · exact unasked _
  have values := (same wholeReal? readsValues_wholeReal?).symm.trans result
  exact ⟨here, accepts, whole, result, readsValues_wholeReal?, Except.ok.inj values, nowhere,
    unasked⟩

end Decimal

end CountedHeap
