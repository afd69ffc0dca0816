import CountedHeap.Proofs.Queues
import CountedHeap.Proofs.Texts
import CountedHeap.Strings

/-!
Contract: joining undoes splitting.

A text is cut at the leftmost occurrence of the separator, and what is behind the occurrence is cut
in the same way.  An occurrence that overlaps an earlier one is passed over.  Each part becomes a
string of its own in a new array, and the strings joined with the same separator are the text again,
unless the separator is written in another way by then.

Owns:
- cutting at leftmost occurrences, as a relation, and that the parts of a text are cut so;
- the array that a splitting makes, and the text that its elements have when they are joined;
- a separator that is made by the splitting.
-/

namespace CountedHeap

namespace Text

/-! ## Leftmost occurrences -/

/-- The pieces of a text that is cut at the leftmost occurrence of a separator, and behind it
again. -/
inductive CutLeftmost (separator : List Char) : List Char → List (List Char) → Prop
  | last {text : List Char} (without : ¬separator <:+: text) : CutLeftmost separator text [text]
  | cut {front rest : List Char} {pieces : List (List Char)}
      (leftmost : ∀ earlier, earlier ++ separator <+: front ++ (separator ++ rest) →
        front.length ≤ earlier.length)
      (others : CutLeftmost separator rest pieces) :
      CutLeftmost separator (front ++ (separator ++ rest)) (front :: pieces)

variable {separator text : List Char} {pieces : List (List Char)}

/-- No piece contains the separator: an occurrence in the front of a cut would begin before it. -/
theorem CutLeftmost.without (cut : CutLeftmost separator text pieces) (nonempty : separator ≠ []) :
    ∀ piece ∈ pieces, ¬separator <:+: piece := by
  induction cut with
  | last without => exact List.forall_mem_singleton.mpr without
  | @cut front rest pieces leftmost _ inductionHypothesis =>
      refine List.forall_mem_cons.mpr ⟨?_, inductionHypothesis⟩
      rintro ⟨before, behind, rfl⟩
      have shorter := leftmost before
        ⟨behind ++ (separator ++ rest), by simp only [List.append_assoc]⟩
      have positive := List.length_pos_of_ne_nil nonempty
      simp only [List.length_append] at shorter
      omega

/-- A character at which no occurrence begins goes to the first piece. -/
theorem CutLeftmost.cons (cut : CutLeftmost separator text pieces) {head : Char}
    (elsewhere : ¬separator <+: head :: text) :
    CutLeftmost separator (head :: text) (pieces.modifyHead (head :: ·)) := by
  cases cut with
  | last without =>
      apply CutLeftmost.last
      intro occurs
      rcases List.infix_cons_iff.mp occurs with here | later
      · exact elsewhere here
      · exact without later
  | @cut front rest pieces leftmost others =>
      show CutLeftmost separator ((head :: front) ++ (separator ++ rest))
        ((head :: front) :: pieces)
      apply CutLeftmost.cut _ others
      intro earlier occurs
      cases earlier with
      | nil => exact absurd occurs elsewhere
      | cons first earlier =>
          exact Nat.succ_le_succ (leftmost earlier (List.cons_prefix_cons.mp occurs).2)

/-- Characters of an occurrence that was found are passed over. -/
theorem piecesAfter_eq_drop (separator : List Char) (skip : Nat) (text : List Char) :
    piecesAfter separator skip text = piecesAfter separator 0 (text.drop skip) := by
  induction skip generalizing text with
  | zero => rfl
  | succ skip inductionHypothesis =>
      cases text with
      | nil => rfl
      | cons head rest => exact inductionHypothesis rest

/-- The pieces of a text are cut at leftmost occurrences.  The induction is on the length of the
text: what is behind an occurrence is shorter. -/
theorem cutLeftmost_pieces (nonempty : separator ≠ []) (text : List Char) :
    CutLeftmost separator text (Text.pieces separator text) := by
  induction sized : text.length using Nat.strongRecOn generalizing text with
  | ind size inductionHypothesis =>
      cases text with
      | nil => exact .last fun occurs => nonempty (List.infix_nil.mp occurs)
      | cons head rest =>
          rw [Text.pieces, piecesAfter]
          split
          next found =>
            obtain ⟨behind, text⟩ := List.isPrefixOf_iff_prefix.mp found
            have dropped : rest.drop (separator.length - 1) = behind := by
              have positive := List.length_pos_of_ne_nil nonempty
              have behindAll := congrArg (List.drop separator.length) text
              rw [List.drop_left] at behindAll
              rw [behindAll, ← Nat.sub_add_cancel positive, List.drop_succ_cons,
                Nat.sub_add_cancel positive]
            have shorter : behind.length < size := by
              have lengths := congrArg List.length text
              have positive := List.length_pos_of_ne_nil nonempty
              rw [List.length_append, sized] at lengths
              omega
            rw [piecesAfter_eq_drop, dropped, ← text]
            show CutLeftmost separator ([] ++ (separator ++ behind)) _
            exact .cut (fun _ _ => Nat.zero_le _) (inductionHypothesis _ shorter behind rfl)
          next elsewhere =>
            have shorter : rest.length < size := sized ▸ Nat.lt_succ_self _
            exact (inductionHypothesis _ shorter rest rfl).cons
              (mt List.isPrefixOf_iff_prefix.mpr elsewhere)

/-! ## The parts of a text -/

/-- How a text is cut: not at all if it is empty, into its characters by an empty separator, and
otherwise at the leftmost occurrences of the separator, which no part contains. -/
structure CutBy (separator text : String) (parts : List String) : Prop where
  empty : text = "" → parts = []
  characters : text ≠ "" → separator = "" → parts.map String.toList = text.toList.map ([·])
  leftmost : text ≠ "" → separator ≠ "" →
    CutLeftmost separator.toList text.toList (parts.map String.toList)
  without : separator ≠ "" → ∀ part ∈ parts, ¬separator.toList <:+: part.toList

theorem parts_of_empty {text : String} (blank : text = "") (separator : String) :
    parts separator text = [] := by
  rw [parts, if_pos (String.isEmpty_iff.mpr blank)]

theorem toList_parts_of_empty_separator {separator text : String} (written : text ≠ "")
    (everywhere : separator = "") :
    (parts separator text).map String.toList = text.toList.map ([·]) := by
  rw [parts, if_neg (mt String.isEmpty_iff.mp written),
    if_pos (String.isEmpty_iff.mpr everywhere), List.map_map]
  exact List.map_congr_left fun character _ => String.toList_ofList

theorem toList_parts {separator text : String} (written : text ≠ "") (present : separator ≠ "") :
    (parts separator text).map String.toList = Text.pieces separator.toList text.toList := by
  rw [parts, if_neg (mt String.isEmpty_iff.mp written),
    if_neg (mt String.isEmpty_iff.mp present), List.map_map]
  exact List.map_id'' (fun _ => String.toList_ofList) _

theorem cutBy_parts (separator text : String) : CutBy separator text (parts separator text) where
  empty := fun blank => parts_of_empty blank separator
  characters := toList_parts_of_empty_separator
  leftmost := fun written present => by
    rw [toList_parts written present]
    exact cutLeftmost_pieces (mt String.toList_eq_nil_iff.mp present) _
  without := fun present part member => by
    have nonempty := mt String.toList_eq_nil_iff.mp present
    by_cases blank : text = ""
    · rw [parts_of_empty blank] at member
      contradiction
    · have cut := cutLeftmost_pieces nonempty text.toList
      rw [← toList_parts blank present] at cut
      exact cut.without nonempty _ (List.mem_map_of_mem member)

theorem intercalate_singletons (text : List Char) : [].intercalate (text.map ([·])) = text := by
  induction text with
  | nil => rfl
  | cons first rest inductionHypothesis =>
      cases rest with
      | nil => rfl
      | cons second rest =>
          rw [List.map_cons, List.map_cons, List.intercalate_cons_cons, List.append_nil,
            List.singleton_append]
          exact congrArg (first :: ·) inductionHypothesis

/-- The parts with the separator between them are the text. -/
theorem intercalate_parts (separator text : String) :
    separator.intercalate (parts separator text) = text := by
  rw [← String.toList_inj, String.toList_intercalate]
  by_cases blank : text = ""
  · rw [parts_of_empty blank, blank]
    rfl
  by_cases everywhere : separator = ""
  · rw [toList_parts_of_empty_separator blank everywhere, everywhere]
    exact intercalate_singletons text.toList
  · rw [toList_parts blank everywhere]
    exact intercalate_pieces (mt String.toList_eq_nil_iff.mp everywhere) text.toList

end Text

namespace Heap

variable {σ : Signature} {heap heap' heap'' : Heap σ} {array : Value} {items strings : List Value}
  {contents : List String}

/-! ## The strings of the parts -/

/-- A new string that is held once. -/
structure HeldString (heap heap' : Heap σ) (string : Value) (content : String) : Prop where
  fresh : ¬heap.Issued string
  payload : heap'.payload string = .text content
  refs : heap'.refs string = 1

theorem HeldString.issued {string : Value} {content : String}
    (held : HeldString heap heap' string content) (consistent : heap'.Consistent) :
    heap'.Issued string :=
  consistent.issued (isLive_of_payload_ne (by rw [held.payload]; simp))

/-- New strings were pushed onto an array, each a string of its own, and no value that was issued
was retained. -/
structure Pushes (heap heap' : Heap σ) (array : Value) (items strings : List Value)
    (contents : List String) : Prop extends Rewrites heap heap' array (items ++ strings) where
  held : List.Forall₂ (HeldString heap heap') strings contents
  nodup : strings.Nodup
  refs : ∀ {value}, heap.Issued value → heap'.refs value = heap.refs value

/-- A new string is long-lived, so it is pushed as it is. -/
theorem pushes_string (consistent : heap.Consistent) (found : heap.items? array = some items)
    (content : String) (room : items.length < elementLimit) :
    ∃ heap', (heap.string content).2.pushItem array (heap.string content).1 =
        .ok ((heap.string content).1, heap') ∧
      Pushes heap heap' array items [(heap.string content).1] [content] := by
  let payload : Payload σ := .text content
  let string := (heap.create payload).1
  have fresh : ¬heap.Issued string := not_issued_create consistent payload
  have different : string ≠ array := fun same =>
    fresh (same ▸ consistent.issued (isLive_of_items? found))
  have making := (Grows.create consistent payload).rewrites consistent
    (consistent.create payload) found
  have kept := making.items? found
  have storing := Rewrites.setItems making.consistent kept (items ++ [string])
  have retaining := Rewrites.retain storing.consistent (storing.items? kept) string
  have durable : string.isScratch = false := isScratch_create payload
  have pushed := pushItem_eq making.consistent kept string room
  simp only [own_of_not_isScratch durable] at pushed
  have born := cell?_create_self consistent payload
  refine ⟨_, pushed, (making.trans storing).trans retaining, .cons ⟨fresh, ?_, ?_⟩ .nil,
    List.nodup_singleton _, ?_⟩
  · rw [payload_retain, setChildren_eq_setPayload, payload_setPayload,
      if_neg fun both => different both.1]
    exact payload_of_cell? born
  · have unheld : (heap.create payload).2.refs string = 0 := by rw [Heap.refs, born]
    rw [refs_retain, setChildren_eq_setPayload, refs_setPayload, isLive_setPayload,
      if_pos ⟨rfl, isLive_of_cell? born⟩]
    exact congrArg (· + 1) unheld
  · intro value issued
    have other : value ≠ string := fun same => fresh (same ▸ issued)
    rw [refs_retain, if_neg fun both => other both.1, setChildren_eq_setPayload,
      refs_setPayload]
    exact refs_eq_of_cell?_eq (cell?_create_of_issued consistent payload issued)

/-- A string that was not issued in a heap was not issued in an earlier one. -/
theorem HeldString.before {string : Value} {content : String}
    (held : HeldString heap' heap'' string content)
    (issued : ∀ {value}, heap.Issued value → heap'.Issued value) :
    HeldString heap heap'' string content :=
  ⟨fun before => held.fresh (issued before), held.payload, held.refs⟩

/-- A string stays as it is while others are pushed. -/
theorem HeldString.after {string : Value} {content : String}
    (held : HeldString heap heap' string content) (consistent : heap'.Consistent)
    (found : heap'.items? array = some items)
    (pushes : Pushes heap' heap'' array items strings contents) :
    HeldString heap heap'' string content := by
  have issued := held.issued consistent
  have different : string ≠ array := by
    rintro rfl
    rw [Heap.items?, held.payload] at found
    contradiction
  exact ⟨held.fresh, (pushes.others issued different).trans held.payload,
    (pushes.refs issued).trans held.refs⟩

/-- Strings are pushed one after another, each made when those before it are in the array. -/
theorem pushes_strings (consistent : heap.Consistent) (found : heap.items? array = some items)
    (contents : List String) (room : items.length + contents.length ≤ elementLimit) :
    ∃ heap' strings, pushStrings array contents heap = .ok heap' ∧
      Pushes heap heap' array items strings contents := by
  induction contents generalizing heap items with
  | nil =>
      have nothing := (Grows.refl heap).rewrites consistent consistent found
      refine ⟨heap, [], rfl, ?_, .nil, .nil, fun _ => rfl⟩
      rwa [List.append_nil]
  | cons content rest inductionHypothesis =>
      rw [List.length_cons] at room
      obtain ⟨after, pushed, first⟩ := pushes_string consistent found content (by omega)
      have foundAfter := first.items? found
      have roomAfter : (items ++ [(heap.string content).1]).length + rest.length ≤
          elementLimit := by
        rw [List.length_append, List.length_singleton]
        omega
      obtain ⟨heap', strings, others, last⟩ :=
        inductionHypothesis first.consistent foundAfter roomAfter
      obtain ⟨held, -⟩ := List.forall₂_cons.mp first.held
      refine ⟨heap', (heap.string content).1 :: strings, ?_, ?_, .cons ?_ ?_,
        List.nodup_cons.mpr ⟨fun again => ?_, last.nodup⟩, fun issued => ?_⟩
      · simp only [pushStrings, pushed, bind, Except.bind, others]
      · have whole := first.toRewrites.trans last.toRewrites
        rwa [List.append_assoc, List.singleton_append] at whole
      · exact held.after first.consistent foundAfter last
      · exact last.held.imp fun _ _ held => held.before first.issued
      · obtain ⟨fresh, -⟩ := (List.forall₂_and_left _ _).mp
          (last.held.imp fun _ _ other => ⟨other.fresh, other⟩)
        exact fresh _ again (held.issued first.consistent)
      · exact (last.refs (first.issued issued)).trans (first.refs issued)

/-! ## Splitting -/

/-- A new array holds new strings, each once, and no value that was issued has another payload. -/
structure HoldsStrings (heap heap' : Heap σ) (array : Value) (strings : List Value)
    (contents : List String) : Prop where
  consistent : heap'.Consistent
  fresh : ¬heap.Issued array
  array : heap'.payload array = .array strings
  held : List.Forall₂ (HeldString heap heap') strings contents
  nodup : strings.Nodup
  others : ∀ {value}, heap.Issued value → heap'.payload value = heap.payload value

/-- Splitting makes the array of the parts and pushes them, and nothing else is written. -/
theorem split_holds (consistent : heap.Consistent) (separator text : Value)
    (room : (Text.parts (heap.text separator) (heap.text text)).length ≤ elementLimit) :
    ∃ array heap' strings, heap.split separator text = .ok (array, heap') ∧
      HoldsStrings heap heap' array strings
        (Text.parts (heap.text separator) (heap.text text)) := by
  let empty : Payload σ := .array []
  let array := (heap.create empty).1
  have growing : Grows heap (heap.create empty).2 := .create consistent empty
  have content := payload_create_self consistent empty
  have found : (heap.create empty).2.items? array = some [] := by
    rw [Heap.items?, content]
    rfl
  have fits := (Nat.zero_add _).trans_le room
  obtain ⟨heap', strings, pushed, pushes⟩ :=
    pushes_strings (consistent.create empty) found _ fits
  refine ⟨array, heap', strings, ?_, pushes.consistent, not_issued_create consistent empty, ?_,
    pushes.held.imp fun _ _ held => held.before growing.issued, pushes.nodup,
    fun {value} issued => ?_⟩
  · simp only [Heap.split, Heap.array, reserve, if_pos room, bind, Except.bind, pure, Except.pure]
    rw [show pushStrings _ _ _ = _ from pushed]
  · rw [pushes.payload, content]
    rfl
  · have different : value ≠ array := by
      rintro rfl
      exact not_issued_create consistent empty issued
    exact (pushes.others (growing.issued issued) different).trans (growing.payload issued)

/-- Without room for its parts a text is not split. -/
theorem split_of_full (separator text : Value)
    (full : elementLimit < (Text.parts (heap.text separator) (heap.text text)).length) :
    heap.split separator text =
      .error (.storage (Text.parts (heap.text separator) (heap.text text)).length) := by
  simp only [Heap.split, Heap.array, reserve, if_neg (Nat.not_le.mpr full), bind, Except.bind]

/-! ## Joining -/

/-- Strings that have the parts of a text are joined to the text, by a separator that is written as
it was. -/
theorem HoldsStrings.payload_join {separator : Value} {text : String}
    (holds : HoldsStrings heap heap' array strings (Text.parts (heap.text separator) text))
    (written : heap'.text separator = heap.text separator) :
    (heap'.join separator array).2.payload (heap'.join separator array).1 = .text text := by
  have found : heap'.items? array = some strings := by
    rw [Heap.items?, holds.array]
    rfl
  have texts : strings.map heap'.text = Text.parts (heap.text separator) text := by
    rw [← List.forall₂_eq_eq_eq, List.forall₂_map_left_iff]
    exact holds.held.imp fun _ _ string => text_of_payload_text string.payload
  simp only [join, found, written, texts, Text.intercalate_parts]
  exact payload_create_self holds.consistent (.text text)

/-- Splitting cuts a text at the leftmost occurrences of the separator, each behind those before it,
into new strings that only a new array holds, each once.  It comes to its end unless there are more
parts than an array has room for.  If no handle below the separator names nothing before the
splitting and a new cell after it, then joining the array with the separator makes the text
again. -/
theorem Runs.join_undoes_split {config : Config} (runs : Runs True (.new config) heap)
    (separator text : Value) :
    ∃ parts, Text.CutBy (heap.text separator) (heap.text text) parts ∧
      (elementLimit < parts.length →
        heap.split separator text = .error (.storage parts.length)) ∧
      (parts.length ≤ elementLimit → ∃ array heap' strings,
        heap.split separator text = .ok (array, heap') ∧
        ¬heap.Issued array ∧ heap'.payload array = .array strings ∧
        List.Forall₂ (HeldString heap heap') strings parts ∧ strings.Nodup ∧
        ((∀ other, heap.Below separator other →
            heap.isLive other = true ∨ heap'.isLive other = false) →
          (heap'.join separator array).2.payload (heap'.join separator array).1 =
            .text (heap.text text))) := by
  have consistent := runs.proper_new.toConsistent
  refine ⟨_, Text.cutBy_parts _ _, split_of_full separator text, fun room => ?_⟩
  obtain ⟨array, heap', strings, answer, holds⟩ := split_holds consistent separator text room
  refine ⟨array, heap', strings, answer, holds.fresh, holds.array, holds.held, holds.nodup,
    fun unforetold => ?_⟩
  apply holds.payload_join
  apply text_eq_of_below
  intro other below
  cases live : heap.isLive other with
  | true => exact holds.others (consistent.issued live)
  | false =>
      have stale' : heap'.isLive other = false :=
        (unforetold other below).resolve_left (live ▸ Bool.false_ne_true)
      rw [payload_of_not_isLive live, payload_of_not_isLive stale']

/-- A text in which occurrences of the separator overlap. -/
def overlapping : Heap .bare :=
  ((new {}).string "aaaéaaa").2.string "aa" |>.2

theorem runs_overlapping : Runs True (.new {}) overlapping :=
  .request (.request .refl (show perform _ (.string "aaaéaaa") = .ok _ from rfl))
    (show perform _ (.string "aa") = .ok _ from rfl)

/-- The texts of the elements of the array that a splitting answers. -/
def splitTexts (heap : Heap σ) (separator text : Value) : Option (List (Option String)) :=
  (heap.split separator text).toOption.bind fun made =>
    (made.2.items? made.1).map (·.map made.2.string?)

/-- Two of the four occurrences are cut out: each of the others overlaps one of these. -/
theorem overlapping_parts_join :
    Runs True (.new {}) overlapping ∧
    ∃ array heap' strings,
      overlapping.split (.cell ⟨1, 0⟩) (.cell ⟨0, 0⟩) = .ok (array, heap') ∧
      ¬overlapping.Issued array ∧ heap'.payload array = .array strings ∧
      List.Forall₂ (HeldString overlapping heap') strings ["", "aé", "a"] ∧
      (heap'.join (.cell ⟨1, 0⟩) array).2.payload (heap'.join (.cell ⟨1, 0⟩) array).1 =
        .text "aaaéaaa" := by
  obtain ⟨parts, -, full, roomy⟩ :=
    runs_overlapping.join_undoes_split (.cell ⟨1, 0⟩) (.cell ⟨0, 0⟩)
  obtain ⟨read, written, leaf, live⟩ :
      overlapping.splitTexts (.cell ⟨1, 0⟩) (.cell ⟨0, 0⟩) =
        some [some "", some "aé", some "a"] ∧
      overlapping.text (.cell ⟨0, 0⟩) = "aaaéaaa" ∧
      overlapping.children (.cell ⟨1, 0⟩) = [] ∧ overlapping.isLive (.cell ⟨1, 0⟩) = true := by
    decide +kernel
  have room : parts.length ≤ elementLimit := by
    by_contra beyond
    rw [splitTexts, full (Nat.lt_of_not_le beyond)] at read
    contradiction
  obtain ⟨array, heap', strings, answer, fresh, content, held, -, joined⟩ := roomy room
  have texts : strings.map heap'.string? = parts.map some := by
    rw [← List.forall₂_eq_eq_eq, List.forall₂_map_left_iff, List.forall₂_map_right_iff]
    exact held.imp fun string content string => by rw [string?, string.payload]
  have same : parts = ["", "aé", "a"] := by
    simp only [splitTexts, answer, Except.toOption, Option.bind_some, items?, content,
      Payload.items?, Option.map_some, texts] at read
    exact List.map_injective_iff.mpr (Option.some_injective _) (Option.some.inj read)
  rw [written] at joined
  refine ⟨runs_overlapping, array, heap', strings, answer, fresh, content, same ▸ held, joined ?_⟩
  intro other below
  obtain rfl := below.eq_of_children_nil leaf
  exact .inl live

/-- The text that the parts of a text give when they are joined again. -/
def rejoined (heap : Heap σ) (separator text : Value) : Option String :=
  (heap.split separator text).toOption.bind fun made =>
    (made.2.join separator made.1).2.string? (made.2.join separator made.1).1

/-- A text, and the only cell. -/
def lone : Heap .bare :=
  ((new {}).string "ab").2

/-- The separator is the handle of the first part, which it names when the array is joined. -/
theorem foretold_separator_joins_another :
    Runs True (.new {}) lone ∧ lone.text (.cell ⟨0, 0⟩) = "ab" ∧ lone.text (.cell ⟨2, 0⟩) = "" ∧
      lone.rejoined (.cell ⟨2, 0⟩) (.cell ⟨0, 0⟩) = some "aab" := by
  have runs : Runs True (.new {}) lone :=
    .request .refl (show perform _ (.string "ab") = .ok _ from rfl)
  exact ⟨runs, by decide +kernel⟩

end Heap

end CountedHeap
