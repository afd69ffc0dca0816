import CountedHeap.Proofs.Nests
import CountedHeap.Proofs.Runs
import CountedHeap.Proofs.Scripts
import CountedHeap.Proofs.Texts
import Mathlib.Data.Finset.Basic

/-!
Contract: where the text of a value is abbreviated.

A text is written from left to right.  The writer enters a container into a set before it writes
the parts of it, and takes it out again behind the last part; a container that it meets while it is
in the set is abbreviated.  So the set has to be the same behind a value as it was before it, or a
container that occurs twice would be abbreviated where it is not inside its own text.

Owns:
- renderings: a text with the values whose texts it is made of, and the places in it;
- the writer, that it ends, and that it leaves the set as it found it;
- a place is abbreviated exactly if it is inside the rendering of its own container.

Does not own: the characters of a text.  The text of a string may look like an abbreviation.
-/

namespace CountedHeap

/-! ## Renderings -/

/-- The brackets around the parts of a container. -/
inductive Bracket where
  | square
  | curly
deriving DecidableEq

/-- The kind of container that is written in these brackets. -/
def Bracket.kind : Bracket → Kind
  | .square => .array
  | .curly => .hash

def Bracket.opening : Bracket → String
  | .square => "["
  | .curly => "\x7b"

def Bracket.closing : Bracket → String
  | .square => "]"
  | .curly => "\x7d"

/-- The brackets of a kind of container. -/
def Kind.bracket? : Kind → Option Bracket
  | .array => some .square
  | .hash => some .curly
  | _ => none

theorem Kind.bracket?_eq_some_iff {kind : Kind} {bracket : Bracket} :
    kind.bracket? = some bracket ↔ kind = bracket.kind := by
  cases kind <;> cases bracket <;> simp [bracket?, Bracket.kind]

theorem Bracket.hasFixedText_kind (bracket : Bracket) : bracket.kind.hasFixedText = false := by
  cases bracket <;> rfl

theorem hasFixedText_or_bracket (kind : Kind) :
    kind.hasFixedText = true ∨ ∃ bracket : Bracket, kind = bracket.kind := by
  cases kind with
  | array => exact .inr ⟨.square, rfl⟩
  | hash => exact .inr ⟨.curly, rfl⟩
  | null | text | int | real | exec | file | program => exact .inl rfl

/-- What stands for a container within its own text. -/
def Bracket.abbreviation (bracket : Bracket) : String :=
  bracket.opening ++ "..." ++ bracket.closing

/-- Texts of keys and values that alternate, as the texts of pairs. -/
def pairTexts : List String → List String
  | key :: value :: rest => (key ++ ":" ++ value) :: pairTexts rest
  | _ => []

/-- The texts between which there are commas: of the items of an array, of the pairs of a hash. -/
def Bracket.entries : Bracket → List String → List String
  | .square, texts => texts
  | .curly, texts => pairTexts texts

/-- How a value is written: without looking into it, abbreviated, or with its parts.  The parts of a
hash are its keys and values in turn. -/
inductive Rendering where
  | plain (value : Value) (content : String)
  | short (bracket : Bracket) (value : Value)
  | full (bracket : Bracket) (value : Value) (parts : List Rendering)

namespace Rendering

/-- The value that is written. -/
def value : Rendering → Value
  | plain value _ | short _ value | full _ value _ => value

def text : Rendering → String
  | plain _ content => content
  | short bracket _ => bracket.abbreviation
  | full bracket _ parts =>
      bracket.opening ++ ",".intercalate (bracket.entries (parts.map text)) ++ bracket.closing

/-- The renderings inside a rendering, each with the containers whose renderings it is inside of,
innermost first. -/
inductive Place : Rendering → List Value → Rendering → Prop
  | here {rendering : Rendering} : Place rendering [] rendering
  | part {bracket : Bracket} {value : Value} {parts : List Rendering} {part place : Rendering}
      {around : List Value} (member : part ∈ parts) (inside : Place part around place) :
      Place (full bracket value parts) (around ++ [value]) place

end Rendering

namespace Heap

variable {σ : Signature} {heap : Heap σ} {value : Value} {enclosing : List Value}

/-- The values that are written between the brackets of a container. -/
def writtenParts (heap : Heap σ) (container : Value) : List Value :=
  match heap.payload container with
  | .array items => items
  | .hash _ => (heap.pairs container).flatMap fun pair => [pair.1, pair.2]
  | _ => []

/-- What is right for a place that is inside the renderings of the containers `around`.  An array or
a hash is abbreviated if it is one of these, and otherwise it is written with all its parts. -/
def Abides (heap : Heap σ) (around : List Value) : Rendering → Prop
  | .plain value content =>
      (heap.kind value).hasFixedText = true ∧ content = (heap.payload value).fixedText
  | .short bracket value => heap.kind value = bracket.kind ∧ value ∈ around
  | .full bracket value parts =>
      heap.kind value = bracket.kind ∧ value ∉ around ∧
        parts.map Rendering.value = heap.writtenParts value

theorem exists_cell?_of_bracket {bracket : Bracket} (form : heap.kind value = bracket.kind) :
    ∃ cell, heap.cell? value = some cell :=
  exists_cell?_of_varies (form ▸ bracket.hasFixedText_kind)

/-- The rendering of a value that occurs within the rendering of every container in `enclosing`. -/
def rendering (heap : Heap σ) (enclosing : List Value) (value : Value) : Rendering :=
  match _form : (heap.kind value).bracket? with
  | none => .plain value (heap.payload value).fixedText
  | some bracket =>
      if _inside : value ∈ enclosing then .short bracket value
      else
        .full bracket value
          ((heap.writtenParts value).map fun part => heap.rendering (value :: enclosing) part)
termination_by heap.unentered enclosing
decreasing_by
  obtain ⟨_, found⟩ := exists_cell?_of_bracket (Kind.bracket?_eq_some_iff.mp _form)
  exact unentered_cons_lt found _inside

theorem rendering_of_fixed (fixed : (heap.kind value).hasFixedText = true)
    (enclosing : List Value) :
    heap.rendering enclosing value = .plain value (heap.payload value).fixedText := by
  rw [rendering]
  split
  next => rfl
  next bracket form =>
    rw [Kind.bracket?_eq_some_iff.mp form, bracket.hasFixedText_kind] at fixed
    contradiction

theorem rendering_of_bracket {bracket : Bracket} (form : heap.kind value = bracket.kind)
    (enclosing : List Value) :
    heap.rendering enclosing value =
      if value ∈ enclosing then .short bracket value
      else .full bracket value
        ((heap.writtenParts value).map (heap.rendering (value :: enclosing))) := by
  have isBracket := Kind.bracket?_eq_some_iff.mpr form
  rw [rendering]
  split <;> simp_all

/-! ## The text of a rendering -/

theorem pairTexts_flatMap {α : Type} (pairs : List (α × α)) (text : α → String) :
    pairTexts ((pairs.flatMap fun pair => [pair.1, pair.2]).map text) =
      pairs.map fun pair => text pair.1 ++ ":" ++ text pair.2 := by
  induction pairs with
  | nil => rfl
  | cons pair rest inductionHypothesis =>
      exact congrArg (_ :: ·) inductionHypothesis

/-- A container is written between brackets, unless it is written around the place. -/
theorem textWithin_of_bracket {bracket : Bracket} (form : heap.kind value = bracket.kind)
    (enclosing : List Value) :
    heap.textWithin enclosing value =
      if value ∈ enclosing then bracket.abbreviation
      else bracket.opening ++ ",".intercalate (bracket.entries
        ((heap.writtenParts value).map (heap.textWithin (value :: enclosing)))) ++
          bracket.closing := by
  cases bracket with
  | square =>
      obtain ⟨items, payload⟩ := array_of_kind form
      rw [textWithin_of_array payload, writtenParts, payload]
      rfl
  | curly =>
      obtain ⟨content, found⟩ := exists_table?_of_kind form
      have payload := table?_eq_some_iff.mp found
      rw [textWithin_of_hash payload, writtenParts, payload]
      dsimp only [Bracket.entries]
      rw [pairTexts_flatMap]
      rfl

/-- The text of a rendering is the text of the value.  The induction is on how many live values are
not written around the place. -/
theorem text_rendering (enclosing : List Value) (value : Value) :
    (heap.rendering enclosing value).text = heap.textWithin enclosing value := by
  induction count : heap.unentered enclosing using Nat.strongRecOn
    generalizing enclosing value with
  | ind count inductionHypothesis =>
      rcases hasFixedText_or_bracket (heap.kind value) with fixed | ⟨bracket, form⟩
      · rw [rendering_of_fixed fixed, textWithin_of_fixed fixed, Rendering.text]
      · rw [rendering_of_bracket form, textWithin_of_bracket form]
        by_cases inside : value ∈ enclosing
        · rw [if_pos inside, if_pos inside, Rendering.text]
        · obtain ⟨cell, found⟩ := exists_cell?_of_bracket form
          have fewer := count ▸ unentered_cons_lt found inside
          rw [if_neg inside, if_neg inside, Rendering.text, List.map_map]
          congr 4
          apply List.map_congr_left
          intro part _
          exact inductionHypothesis _ fewer _ _ rfl

/-! ## The writer -/

end Heap

/-- What has been written, and the containers that are being written. -/
structure Writer where
  out : String
  entered : Finset Value

def Writer.put (writer : Writer) (content : String) : Writer :=
  { writer with out := writer.out ++ content }

/-- Write parts one after another, with a comma before each but the first. -/
def writeEach {α : Type} (writePart : α → Writer → Option (List Rendering × Writer)) :
    Nat → List α → Writer → Option (List Rendering × Writer)
  | _, [], writer => some ([], writer)
  | index, part :: rest, writer => do
      let (renderings, writer) ← writePart part (if 0 < index then writer.put "," else writer)
      let (others, writer) ← writeEach writePart (index + 1) rest writer
      return (renderings ++ others, writer)

def writeItem (write : Value → Writer → Option (Rendering × Writer)) (item : Value)
    (writer : Writer) : Option (List Rendering × Writer) := do
  let (rendering, writer) ← write item writer
  return ([rendering], writer)

def writePair (write : Value → Writer → Option (Rendering × Writer)) (pair : Value × Value)
    (writer : Writer) : Option (List Rendering × Writer) := do
  let (key, writer) ← write pair.1 writer
  let (item, writer) ← write pair.2 (writer.put ":")
  return ([key, item], writer)

/-- Abbreviate a container that is being written.  Enter any other, write its parts, and take it out
again. -/
def writeContainer (bracket : Bracket) (value : Value)
    (writeParts : Writer → Option (List Rendering × Writer)) (writer : Writer) :
    Option (Rendering × Writer) :=
  if value ∈ writer.entered then some (.short bracket value, writer.put bracket.abbreviation)
  else do
    let (parts, writer) ← writeParts
      { out := writer.out ++ bracket.opening, entered := insert value writer.entered }
    return (.full bracket value parts,
      { out := writer.out ++ bracket.closing, entered := writer.entered.erase value })

namespace Heap

variable {σ : Signature} {heap : Heap σ} {value : Value} {enclosing : List Value}

/-- Write a value, if this takes fewer than `depth` calls inside one another. -/
def writeWithin (heap : Heap σ) : Nat → Value → Writer → Option (Rendering × Writer)
  | 0, _, _ => none
  | depth + 1, value, writer =>
      match heap.payload value with
      | .array items =>
          writeContainer .square value (writeEach (writeItem (heap.writeWithin depth)) 0 items)
            writer
      | .hash _ =>
          writeContainer .curly value
            (writeEach (writePair (heap.writeWithin depth)) 0 (heap.pairs value)) writer
      | payload => some (.plain value payload.fixedText, writer.put payload.fixedText)

/-- The texts of parts with a comma before each of them, the first one at index zero apart. -/
def withCommas : Nat → List String → String
  | _, [] => ""
  | index, text :: rest => (if 0 < index then "," else "") ++ text ++ withCommas (index + 1) rest

theorem withCommas_cons (index : Nat) (text : String) (rest : List String) :
    withCommas index (text :: rest) =
      (if 0 < index then "," else "") ++ ",".intercalate (text :: rest) := by
  induction rest generalizing index text with
  | nil => rw [withCommas, withCommas, String.append_empty, String.intercalate_singleton]
  | cons next rest inductionHypothesis =>
      rw [withCommas, inductionHypothesis, if_pos (Nat.succ_pos index),
        String.intercalate_cons_cons, String.append_assoc, String.append_assoc]

theorem withCommas_zero (texts : List String) : withCommas 0 texts = ",".intercalate texts := by
  cases texts with
  | nil => rfl
  | cons text rest => rw [withCommas_cons, if_neg (Nat.lt_irrefl 0), String.empty_append]

/-- What a loop over parts writes, if every part is written as `rendering` and `text` say and leaves
the set of entered containers. -/
theorem writeEach_eq {α : Type} {writePart : α → Writer → Option (List Rendering × Writer)}
    {rendering : α → List Rendering} {text : α → String} {entered : Finset Value}
    (written : ∀ part out, writePart part ⟨out, entered⟩ =
      some (rendering part, ⟨out ++ text part, entered⟩))
    (index : Nat) (parts : List α) (out : String) :
    writeEach writePart index parts ⟨out, entered⟩ =
      some (parts.flatMap rendering, ⟨out ++ withCommas index (parts.map text), entered⟩) := by
  induction parts generalizing index out with
  | nil => simp [writeEach, withCommas]
  | cons part rest inductionHypothesis =>
      have start : (if 0 < index then Writer.put ⟨out, entered⟩ "," else ⟨out, entered⟩) =
          ⟨out ++ if 0 < index then "," else "", entered⟩ := by
        split <;> simp [Writer.put]
      rw [writeEach, start, written]
      simp only [Option.bind_eq_bind, Option.bind_some, inductionHypothesis]
      simp [withCommas, String.append_assoc]

section Loops

variable {write : Value → Writer → Option (Rendering × Writer)} {rendering : Value → Rendering}
  {text : Value → String} {entered : Finset Value}

theorem writeItems_eq
    (written : ∀ part out,
      write part ⟨out, entered⟩ = some (rendering part, ⟨out ++ text part, entered⟩))
    (items : List Value) (out : String) :
    writeEach (writeItem write) 0 items ⟨out, entered⟩ =
      some (items.map rendering,
        ⟨out ++ ",".intercalate (Bracket.square.entries (items.map text)), entered⟩) := by
  have each : ∀ item out, writeItem write item ⟨out, entered⟩ =
      some ([rendering item], ⟨out ++ text item, entered⟩) := by
    intro item out
    rw [writeItem, written]
    rfl
  rw [writeEach_eq each, withCommas_zero, ← List.map_eq_flatMap]
  rfl

theorem writePairs_eq
    (written : ∀ part out,
      write part ⟨out, entered⟩ = some (rendering part, ⟨out ++ text part, entered⟩))
    (pairs : List (Value × Value)) (out : String) :
    writeEach (writePair write) 0 pairs ⟨out, entered⟩ =
      some ((pairs.flatMap fun pair => [pair.1, pair.2]).map rendering,
        ⟨out ++ ",".intercalate (Bracket.curly.entries
          ((pairs.flatMap fun pair => [pair.1, pair.2]).map text)), entered⟩) := by
  have each : ∀ pair out, writePair write pair ⟨out, entered⟩ =
      some ([pair.1, pair.2].map rendering,
        ⟨out ++ (text pair.1 ++ ":" ++ text pair.2), entered⟩) := by
    intro pair out
    simp only [writePair, written, Option.bind_eq_bind, Option.bind_some, Writer.put,
      ← String.append_assoc]
    rfl
  rw [writeEach_eq each, withCommas_zero, List.map_flatMap, Bracket.entries, pairTexts_flatMap]

end Loops

/-- The writer of a container, if the loop over its parts writes them as they are written within it
and leaves the set.  The container is taken out of the set again. -/
theorem writeContainer_eq {bracket : Bracket} (form : heap.kind value = bracket.kind)
    {writeParts : Writer → Option (List Rendering × Writer)}
    (written : value ∉ enclosing → ∀ out,
      writeParts ⟨out, (value :: enclosing).toFinset⟩ =
        some ((heap.writtenParts value).map (heap.rendering (value :: enclosing)),
          ⟨out ++ ",".intercalate (bracket.entries
            ((heap.writtenParts value).map (heap.textWithin (value :: enclosing)))),
            (value :: enclosing).toFinset⟩)) (out : String) :
    writeContainer bracket value writeParts ⟨out, enclosing.toFinset⟩ =
      some (heap.rendering enclosing value,
        ⟨out ++ heap.textWithin enclosing value, enclosing.toFinset⟩) := by
  rw [rendering_of_bracket form, textWithin_of_bracket form, writeContainer]
  by_cases inside : value ∈ enclosing
  · rw [if_pos (List.mem_toFinset.mpr inside), if_pos inside, if_pos inside]
    rfl
  · have outside := mt List.mem_toFinset.mp inside
    rw [if_neg outside, if_neg inside, if_neg inside, ← List.toFinset_cons, written inside]
    simp only [Option.bind_eq_bind, Option.bind_some, List.toFinset_cons,
      Finset.erase_insert outside, String.append_assoc]
    rfl

/-- What is no container is written without looking into it. -/
theorem writeWithin_of_fixed (fixed : (heap.kind value).hasFixedText = true) (depth : Nat)
    (writer : Writer) :
    heap.writeWithin (depth + 1) value writer =
      some (.plain value (heap.payload value).fixedText,
        writer.put (heap.payload value).fixedText) := by
  rw [writeWithin]
  split
  next items payload =>
    rw [kind, payload] at fixed
    contradiction
  next content payload =>
    rw [kind, payload] at fixed
    contradiction
  next => rfl

/-- The writer ends, within as many calls inside one another as there are live values that are not
being written, and leaves the set as it was.  The induction is on that number. -/
theorem writeWithin_eq {depth : Nat} (enough : heap.unentered enclosing < depth) (value : Value)
    (out : String) :
    heap.writeWithin depth value ⟨out, enclosing.toFinset⟩ =
      some (heap.rendering enclosing value,
        ⟨out ++ heap.textWithin enclosing value, enclosing.toFinset⟩) := by
  induction depth generalizing enclosing value out with
  | zero => contradiction
  | succ depth inductionHypothesis =>
      have inside : ∀ {bracket : Bracket}, heap.kind value = bracket.kind → value ∉ enclosing →
          ∀ part out, heap.writeWithin depth part ⟨out, (value :: enclosing).toFinset⟩ =
            some (heap.rendering (value :: enclosing) part,
              ⟨out ++ heap.textWithin (value :: enclosing) part,
                (value :: enclosing).toFinset⟩) := by
        intro bracket form outside
        obtain ⟨cell, found⟩ := exists_cell?_of_bracket form
        have fewer := unentered_cons_lt found outside
        exact inductionHypothesis (by omega)
      rcases hasFixedText_or_bracket (heap.kind value) with fixed | ⟨bracket, form⟩
      · rw [rendering_of_fixed fixed, textWithin_of_fixed fixed, writeWithin_of_fixed fixed]
        rfl
      · cases bracket with
        | square =>
            obtain ⟨items, payload⟩ := array_of_kind form
            have parts : heap.writtenParts value = items := by rw [writtenParts, payload]
            rw [writeWithin, payload]
            apply writeContainer_eq form
            intro outside out
            rw [parts]
            exact writeItems_eq (inside form outside) items out
        | curly =>
            obtain ⟨content, found⟩ := exists_table?_of_kind form
            have payload := table?_eq_some_iff.mp found
            have parts : heap.writtenParts value =
                (heap.pairs value).flatMap fun pair => [pair.1, pair.2] := by
              rw [writtenParts, payload]
            rw [writeWithin, payload]
            apply writeContainer_eq form
            intro outside out
            rw [parts]
            exact writePairs_eq (inside form outside) (heap.pairs value) out

/-! ## Places -/

theorem strictlyBelow_of_mem_writtenParts {part : Value}
    (member : part ∈ heap.writtenParts value) : heap.StrictlyBelow value part := by
  unfold writtenParts at member
  split at member
  next items payload => exact .single (by rwa [children, payload])
  next =>
    obtain ⟨pair, isPair, inPair⟩ := List.mem_flatMap.mp member
    obtain ⟨bucket, isBucket, first, second⟩ := mem_children_of_mem_pairs isPair
    rcases List.mem_pair.mp inPair with rfl | rfl
    · exact .tail (.single isBucket) first
    · exact .tail (.single isBucket) second
  next => contradiction

theorem value_rendering (enclosing : List Value) (value : Value) :
    (heap.rendering enclosing value).value = value := by
  rcases hasFixedText_or_bracket (heap.kind value) with fixed | ⟨bracket, form⟩
  · rw [rendering_of_fixed fixed]
    rfl
  · rw [rendering_of_bracket form]
    split <;> rfl

/-- At the value itself, the rendering is as it should be. -/
theorem abides_rendering (enclosing : List Value) (value : Value) :
    heap.Abides enclosing (heap.rendering enclosing value) := by
  rcases hasFixedText_or_bracket (heap.kind value) with fixed | ⟨bracket, form⟩
  · rw [rendering_of_fixed fixed]
    exact ⟨fixed, rfl⟩
  · rw [rendering_of_bracket form]
    split
    next inside => exact ⟨form, inside⟩
    next outside =>
      refine ⟨form, outside, ?_⟩
      rw [List.map_map]
      exact List.map_id'' (value_rendering _) _

/-- What is written with its parts is not written around the place, and the parts are inside it. -/
theorem parts_of_full_eq_rendering {bracket : Bracket} {container : Value}
    {parts : List Rendering}
    (isRendering : .full bracket container parts = heap.rendering enclosing value) :
    container = value ∧
      parts = (heap.writtenParts value).map (heap.rendering (value :: enclosing)) := by
  rcases hasFixedText_or_bracket (heap.kind value) with fixed | ⟨bracket', form⟩
  · rw [rendering_of_fixed fixed] at isRendering
    contradiction
  · rw [rendering_of_bracket form] at isRendering
    split at isRendering
    · contradiction
    · obtain ⟨-, same, parts⟩ := Rendering.full.inj isRendering
      exact ⟨same, parts⟩

/-- Every place inside is as it should be.  The induction is on how the place is found; each step
takes one more container into the ones that are written around it. -/
theorem abides_of_place {whole place : Rendering} {around : List Value}
    (found : whole.Place around place) (isRendering : whole = heap.rendering enclosing value) :
    heap.Abides (around ++ enclosing) place := by
  induction found generalizing enclosing value with
  | here =>
      rw [isRendering]
      exact abides_rendering enclosing value
  | part member _ inductionHypothesis =>
      obtain ⟨rfl, rfl⟩ := parts_of_full_eq_rendering isRendering
      obtain ⟨item, -, isItem⟩ := List.mem_map.mp member
      rw [List.append_assoc, List.singleton_append]
      exact inductionHypothesis isItem.symm

/-- A place is below the value, and strictly below each container that is written around it. -/
theorem below_of_place {whole place : Rendering} {around : List Value}
    (found : whole.Place around place) (isRendering : whole = heap.rendering enclosing value) :
    heap.Below value place.value ∧
      ∀ container ∈ around,
        heap.Below value container ∧ heap.StrictlyBelow container place.value := by
  induction found generalizing enclosing value with
  | here =>
      rw [isRendering, value_rendering]
      exact ⟨.refl, fun _ member => absurd member List.not_mem_nil⟩
  | part member _ inductionHypothesis =>
      obtain ⟨rfl, rfl⟩ := parts_of_full_eq_rendering isRendering
      obtain ⟨item, isPart, isItem⟩ := List.mem_map.mp member
      have down := strictlyBelow_of_mem_writtenParts isPart
      obtain ⟨below, inside⟩ := inductionHypothesis isItem.symm
      refine ⟨down.to_reflTransGen.trans below, fun container isAround => ?_⟩
      rcases List.mem_append.mp isAround with inner | outermost
      · obtain ⟨containerBelow, strictly⟩ := inside container inner
        exact ⟨down.to_reflTransGen.trans containerBelow, strictly⟩
      · rw [List.mem_singleton.mp outermost]
        exact ⟨.refl, down.trans_left below⟩

theorem unentered_nil_le (heap : Heap σ) : heap.unentered [] ≤ heap.handles.length :=
  List.length_filter_le _ _

/-- Writing the text of a value ends on every heap, cyclic ones too, before there are more calls
inside one another than there are live values, and the set of entered containers is empty again.  In
what it has written, a container is abbreviated exactly at the places that are inside its own
rendering, and at every other place it is written with all its parts.  If no container below the
value is strictly below itself, nothing is abbreviated. -/
theorem text_abbreviates_inside_itself (heap : Heap σ) (value : Value) :
    ∃ whole : Rendering,
      (∀ depth, heap.handles.length < depth → ∀ out,
        heap.writeWithin depth value ⟨out, ∅⟩ = some (whole, ⟨out ++ heap.text value, ∅⟩)) ∧
      whole.value = value ∧ whole.text = heap.text value ∧
      (∀ {around place}, whole.Place around place → heap.Abides around place) ∧
      ((∀ container, heap.Below value container → ¬heap.StrictlyBelow container container) →
        ∀ {around bracket container}, ¬whole.Place around (.short bracket container)) := by
  have abides : ∀ {around place}, (heap.rendering [] value).Place around place →
      heap.Abides around place := by
    intro around place found
    have here := abides_of_place found rfl
    rwa [List.append_nil] at here
  refine ⟨heap.rendering [] value, ?_, value_rendering [] value, text_rendering [] value, abides,
    ?_⟩
  · intro depth enough out
    have within : heap.unentered [] < depth := heap.unentered_nil_le.trans_lt enough
    exact writeWithin_eq within value out
  · intro acyclic around bracket container found
    obtain ⟨-, inside⟩ := abides found
    obtain ⟨below, strictly⟩ := (below_of_place found rfl).2 container inside
    exact acyclic container below strictly

/-- An array, a hash with it under a key, an array of these in which the first comes twice, and an
array that holds the first twice and itself. -/
def sharedParts : List (Request .bare) :=
  [.int 1, .arrayOf [.cell ⟨0, 0⟩], .string "k", .hash,
    .setKey (.cell ⟨3, 0⟩) (.cell ⟨2, 0⟩) (.cell ⟨1, 0⟩),
    .arrayOf [.cell ⟨1, 0⟩, .cell ⟨3, 0⟩, .cell ⟨1, 0⟩], .arrayOf [.cell ⟨1, 0⟩, .cell ⟨1, 0⟩],
    .pushItem (.cell ⟨6, 0⟩) (.cell ⟨6, 0⟩)]

theorem isSome_partsShared :
    ((new { hashBuckets := 1 }).performAll? sharedParts).isSome = true := by
  decide +kernel

def partsShared : Heap .bare :=
  ((new { hashBuckets := 1 }).performAll? sharedParts).get isSome_partsShared

/-- The array that comes three times is written three times, and in the array that holds itself
twice.  Of the latter only the occurrence within its own text is abbreviated. -/
theorem shared_array_is_written_each_time :
    (∃ whole : Rendering, whole.text = "[[1],\x7bk:[1]\x7d,[1]]" ∧
      ∀ {around bracket container}, ¬whole.Place around (.short bracket container)) ∧
    ∃ whole : Rendering, whole.text = "[[1],[1],[...]]" ∧
      ∀ {around place}, whole.Place around place → partsShared.Abides around place := by
  obtain ⟨whole, -, -, text, -, unabbreviated⟩ :=
    partsShared.text_abbreviates_inside_itself (.cell ⟨5, 0⟩)
  obtain ⟨cyclic, -, -, cyclicText, abides, -⟩ :=
    partsShared.text_abbreviates_inside_itself (.cell ⟨6, 0⟩)
  obtain ⟨nests, plainly, shortened⟩ :
      partsShared.NestsWithin 4 (.cell ⟨5, 0⟩) ∧
      partsShared.text (.cell ⟨5, 0⟩) = "[[1],\x7bk:[1]\x7d,[1]]" ∧
      partsShared.text (.cell ⟨6, 0⟩) = "[[1],[1],[...]]" := by
    decide +kernel
  refine ⟨⟨whole, text.trans plainly, ?_⟩, cyclic, cyclicText.trans shortened, abides⟩
  exact unabbreviated fun container below => (nests.of_below below).not_strictlyBelow

end Heap

end CountedHeap
