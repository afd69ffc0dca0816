import CountedHeap.Text.Bucket
import Mathlib.Data.List.Lex
import Mathlib.Tactic.SplitIfs

/-!
Contract: texts and their UTF-8 bytes are in the same order.

A text precedes another if its characters do, one after another.  The encoding of a character
never begins the encoding of another one and preserves the order of characters, so the bytes
of the texts are in the same order as the characters.

Owns: the bytes of a text, and their order.
-/

namespace CountedHeap.Text

/-- The UTF-8 bytes of a text. -/
def bytes (text : String) : List UInt8 :=
  text.toUTF8.data.toList

theorem bytes_eq_flatMap (text : String) :
    bytes text = text.toList.flatMap String.utf8EncodeChar := by
  conv_lhs => rw [← String.ofList_toList (s := text)]
  rw [bytes, String.toUTF8_eq_toByteArray, String.toByteArray_ofList, List.utf8Encode,
    List.data_toByteArray]

theorem cons_lt_of_lead {byte byte' : Nat} (less : byte < byte') (small : byte' < 256)
    (rest rest' : List UInt8) : UInt8.ofNat byte :: rest < UInt8.ofNat byte' :: rest' := by
  refine List.cons_lt_cons_iff.mpr (.inl ?_)
  rw [UInt8.lt_iff_toNat_lt, UInt8.toNat_ofNat', UInt8.toNat_ofNat',
    Nat.mod_eq_of_lt (Nat.lt_trans less small), Nat.mod_eq_of_lt small]
  exact less

/-- The bytes before the last one decide, and if they agree the last one does. -/
theorem append_trail_lt (front front' : List UInt8) {number other : Nat}
    (less : number < other) (same : number / 64 = other / 64 → front = front')
    (decided : number / 64 < other / 64 → ∀ rest rest', front ++ rest < front' ++ rest')
    (rest rest' : List UInt8) :
    front ++ UInt8.ofNat (number % 64 + 128) :: rest <
      front' ++ UInt8.ofNat (other % 64 + 128) :: rest' := by
  rcases Nat.lt_or_eq_of_le (Nat.div_le_div_right (Nat.le_of_lt less)) with leads | leads
  · exact decided leads _ _
  · rw [same leads]
    exact List.append_left_lt (cons_lt_of_lead (by omega) (by omega) _ _)

/-- The encodings of two characters differ before either of them ends, in the order of the
characters. -/
theorem utf8EncodeChar_append_lt {first second : Char} (less : first < second)
    (rest rest' : List UInt8) :
    String.utf8EncodeChar first ++ rest < String.utf8EncodeChar second ++ rest' := by
  have values : first.val.toNat < second.val.toNat := UInt32.lt_iff_toNat_lt.mp less
  have bound : second.val.toNat < 0x110000 := by
    rcases second.valid with low | ⟨-, high⟩
    · exact Nat.lt_trans low (by decide)
    · exact high
  unfold String.utf8EncodeChar
  generalize first.val.toNat = number at values
  generalize second.val.toNat = other at values bound
  have thirds : number / 4096 = number / 64 / 64 ∧ other / 4096 = other / 64 / 64 := by omega
  have fourths : number / 262144 = number / 64 / 64 / 64 ∧
      other / 262144 = other / 64 / 64 / 64 := by omega
  simp only [thirds.1, thirds.2, fourths.1, fourths.2]
  split_ifs
  -- The first bytes decide between encodings of different lengths, and of one byte.
  all_goals try exact cons_lt_of_lead (by omega) (by omega) _ _
  · exact append_trail_lt [_] [_] values (fun same => by rw [same])
      (fun less => cons_lt_of_lead (by omega) (by omega)) rest rest'
  · exact append_trail_lt [_, _] [_, _] values (fun same => by rw [same])
      (fun less => append_trail_lt [_] [_] less (fun same => by rw [same])
        fun less => cons_lt_of_lead (by omega) (by omega)) rest rest'
  · exact append_trail_lt [_, _, _] [_, _, _] values (fun same => by rw [same])
      (fun less => append_trail_lt [_, _] [_, _] less (fun same => by rw [same])
        fun less => append_trail_lt [_] [_] less (fun same => by rw [same])
          fun less => cons_lt_of_lead (by omega) (by omega)) rest rest'

theorem flatMap_utf8EncodeChar_lt {characters characters' : List Char}
    (less : characters < characters') :
    characters.flatMap String.utf8EncodeChar < characters'.flatMap String.utf8EncodeChar := by
  induction less with
  | @nil head rest =>
      rw [List.flatMap_cons, List.flatMap_nil]
      cases encoded : String.utf8EncodeChar head with
      | nil => exact absurd encoded String.utf8EncodeChar_ne_nil
      | cons byte bytes => exact List.nil_lt_cons _ _
  | cons _ inductionHypothesis =>
      rw [List.flatMap_cons, List.flatMap_cons]
      exact List.append_left_lt inductionHypothesis
  | rel less =>
      rw [List.flatMap_cons, List.flatMap_cons]
      exact utf8EncodeChar_append_lt less _ _

/-- The order of texts is the order of their bytes. -/
theorem bytes_lt_bytes {text text' : String} (less : text < text') : bytes text < bytes text' := by
  rw [bytes_eq_flatMap, bytes_eq_flatMap]
  exact flatMap_utf8EncodeChar_lt less

end CountedHeap.Text
