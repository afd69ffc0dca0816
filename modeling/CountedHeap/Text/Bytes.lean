/-!
Contract: cutting a text at byte offsets of its UTF-8 form.

Owns: the two ways to move an offset inside a character to a character boundary, down and
up.
-/

namespace CountedHeap.Text

/-- The number of bytes of a run of characters. -/
def byteLength : List Char → Nat
  | [] => 0
  | head :: rest => head.utf8Size + byteLength rest

/-- The longest run of leading characters that fits into `limit` bytes. -/
def takeWithin : Nat → List Char → List Char
  | _, [] => []
  | limit, head :: rest =>
      if head.utf8Size ≤ limit then head :: takeWithin (limit - head.utf8Size) rest else []

/-- The shortest run of leading characters that covers `extent` bytes, or the whole text if
it is shorter. -/
def takeCovering : Nat → List Char → List Char
  | _, [] => []
  | extent, head :: rest =>
      if extent = 0 then [] else head :: takeCovering (extent - head.utf8Size) rest

theorem takeWithin_isPrefix (limit : Nat) (text : List Char) :
    takeWithin limit text <+: text := by
  induction text generalizing limit with
  | nil => exact List.nil_prefix
  | cons head rest inductionHypothesis =>
      simp only [takeWithin]
      split
      · exact List.cons_prefix_cons.mpr ⟨rfl, inductionHypothesis _⟩
      · exact List.nil_prefix

theorem takeCovering_isPrefix (extent : Nat) (text : List Char) :
    takeCovering extent text <+: text := by
  induction text generalizing extent with
  | nil => exact List.nil_prefix
  | cons head rest inductionHypothesis =>
      simp only [takeCovering]
      split
      · exact List.nil_prefix
      · exact List.cons_prefix_cons.mpr ⟨rfl, inductionHypothesis _⟩

theorem byteLength_takeWithin_le (limit : Nat) (text : List Char) :
    byteLength (takeWithin limit text) ≤ limit := by
  induction text generalizing limit with
  | nil => simp [takeWithin, byteLength]
  | cons head rest inductionHypothesis =>
      simp only [takeWithin]
      split
      next fits =>
        have tailFits := inductionHypothesis (limit - head.utf8Size)
        simp only [byteLength] at tailFits ⊢
        omega
      next => simp [byteLength]

/-- A cut that moves down never passes a cut that moves up from the same or a later
offset. -/
theorem length_takeWithin_le_length_takeCovering {limit extent : Nat}
    (ordered : limit ≤ extent) (text : List Char) :
    (takeWithin limit text).length ≤ (takeCovering extent text).length := by
  induction text generalizing limit extent with
  | nil => simp [takeWithin]
  | cons head rest inductionHypothesis =>
      have positive := head.utf8Size_pos
      simp only [takeWithin, takeCovering]
      split
      next fits =>
        rw [if_neg (by omega)]
        have stillOrdered : limit - head.utf8Size ≤ extent - head.utf8Size := by omega
        simpa using inductionHypothesis stillOrdered
      next => simp

/-- The three parts of a text around the byte range from `first` up to `last`, widened to
character boundaries. -/
def cutAt (first last : Nat) (text : List Char) : List Char × List Char × List Char :=
  let front := takeWithin first text
  let through := takeCovering last text
  (front, through.drop front.length, text.drop through.length)

/-- The three parts make up the text. -/
theorem cutAt_append {first last : Nat} (ordered : first ≤ last) (text : List Char) :
    (cutAt first last text).1 ++ (cutAt first last text).2.1 ++ (cutAt first last text).2.2 =
      text := by
  simp only [cutAt]
  obtain ⟨frontRest, frontEqual⟩ := takeWithin_isPrefix first text
  obtain ⟨throughRest, throughEqual⟩ := takeCovering_isPrefix last text
  have shorter := length_takeWithin_le_length_takeCovering ordered text
  have inside : takeWithin first text <+: takeCovering last text :=
    List.prefix_of_prefix_length_le ⟨frontRest, frontEqual⟩ ⟨throughRest, throughEqual⟩ shorter
  obtain ⟨removed, removedEqual⟩ := inside
  have dropFront : (takeCovering last text).drop (takeWithin first text).length = removed := by
    rw [← removedEqual, List.drop_left]
  have dropThrough : text.drop (takeCovering last text).length = throughRest := by
    have dropped := congrArg (List.drop (takeCovering last text).length) throughEqual
    rw [List.drop_left] at dropped
    exact dropped.symm
  rw [dropFront, dropThrough, removedEqual, throughEqual]

end CountedHeap.Text
