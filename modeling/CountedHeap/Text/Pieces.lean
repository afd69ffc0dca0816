/-!
Contract: cutting a text at a separator.

Owns:
- the pieces between the leftmost, non-overlapping occurrences of a separator;
- the characters of a text as pieces of their own.

The cut loses nothing: the pieces with the separator between them are the text again.
-/

namespace CountedHeap.Text

/-- The pieces of a text between the occurrences of `separator`, where the next `skip`
characters belong to an occurrence already found. -/
def piecesAfter (separator : List Char) : Nat → List Char → List (List Char)
  | _, [] => [[]]
  | skip + 1, _ :: rest => piecesAfter separator skip rest
  | 0, head :: rest =>
      if separator.isPrefixOf (head :: rest) then
        [] :: piecesAfter separator (separator.length - 1) rest
      else
        (piecesAfter separator 0 rest).modifyHead (head :: ·)

/-- The pieces of a text between the leftmost, non-overlapping occurrences of a non-empty
separator.  A text without an occurrence is one piece; pieces can be empty. -/
def pieces (separator text : List Char) : List (List Char) :=
  piecesAfter separator 0 text

/-- The parts of a text: none if it is empty, its characters if the separator is empty,
otherwise the pieces between separators. -/
def parts (separator text : String) : List String :=
  if text.isEmpty then []
  else if separator.isEmpty then text.toList.map fun character => String.ofList [character]
  else (pieces separator.toList text.toList).map String.ofList

theorem piecesAfter_ne_nil (separator text : List Char) (skip : Nat) :
    piecesAfter separator skip text ≠ [] := by
  induction text generalizing skip with
  | nil => simp [piecesAfter]
  | cons head rest inductionHypothesis =>
      cases skip with
      | zero =>
          simp only [piecesAfter]
          split
          · simp
          · cases equal : piecesAfter separator 0 rest with
            | nil => exact absurd equal (inductionHypothesis 0)
            | cons first others => simp
      | succ skip => exact inductionHypothesis skip

private theorem intercalate_cons_of_ne_nil (separator first : List Char)
    {others : List (List Char)} (nonempty : others ≠ []) :
    separator.intercalate (first :: others) =
      first ++ (separator ++ separator.intercalate others) := by
  cases others with
  | nil => exact absurd rfl nonempty
  | cons second others => simp [List.intercalate]

private theorem intercalate_modifyHead (separator : List Char) (head : Char)
    {all : List (List Char)} (nonempty : all ≠ []) :
    separator.intercalate (all.modifyHead (head :: ·)) =
      head :: separator.intercalate all := by
  cases all with
  | nil => exact absurd rfl nonempty
  | cons first others =>
      cases others with
      | nil => simp [List.intercalate]
      | cons second others => simp [List.intercalate]

private theorem intercalate_piecesAfter {separator : List Char}
    (nonempty : separator ≠ []) (skip : Nat) (text : List Char) :
    separator.intercalate (piecesAfter separator skip text) = text.drop skip := by
  induction text generalizing skip with
  | nil => simp [piecesAfter, List.intercalate]
  | cons head rest inductionHypothesis =>
      cases skip with
      | succ skip => exact inductionHypothesis skip
      | zero =>
          simp only [piecesAfter, List.drop_zero]
          split
          next found =>
            rw [intercalate_cons_of_ne_nil _ _ (piecesAfter_ne_nil _ _ _),
              inductionHypothesis, List.nil_append]
            obtain ⟨behind, equal⟩ := List.isPrefixOf_iff_prefix.mp found
            cases separator with
            | nil => exact absurd rfl nonempty
            | cons first others =>
                simp only [List.cons_append, List.cons.injEq] at equal
                obtain ⟨rfl, rfl⟩ := equal
                simp
          next =>
            rw [intercalate_modifyHead _ _ (piecesAfter_ne_nil _ _ _),
              inductionHypothesis, List.drop_zero]

/-- Joining the pieces with the separator gives the text back. -/
theorem intercalate_pieces {separator : List Char} (nonempty : separator ≠ [])
    (text : List Char) :
    separator.intercalate (pieces separator text) = text := by
  simpa [pieces] using intercalate_piecesAfter nonempty 0 text

end CountedHeap.Text
