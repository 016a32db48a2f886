import Mathlib.Data.List.Basic
import RandomAccess.Proofs.Template.Scanner

/-!
# The grammar of messages

A well-formed message is put together from texts without braces, doubled braces and placeholders.
The scanner knows less than that: it goes from one opening brace to the next, has no notion of a
doubled closing brace, and goes on with the text inside of a placeholder once it has the name. Still
it reads every message as it was put together, however closely braces follow each other.
-/

namespace RandomAccess.Template

/-- A text without braces. -/
structure Plain where
  /-- The text itself. -/
  text : String
  opening_notMem : '{' ∉ text.toList
  closing_notMem : '}' ∉ text.toList

/-- A name in braces, perhaps with a format after a colon. The name may be empty. -/
structure Placeholder where
  /-- The name. -/
  name : Plain
  colon_notMem : ':' ∉ name.text.toList
  /-- The format. -/
  spec? : Option Plain

/-- What a message is put together from. -/
inductive Segment where
  /-- A text that stands for itself. -/
  | literal (text : Plain)
  /-- Two opening braces. -/
  | opening
  /-- Two closing braces. -/
  | closing
  /-- A place for an argument. -/
  | argument (placeholder : Placeholder)

/-- An underscore before a text. -/
def Plain.underscored (plain : Plain) : Plain where
  text := "_" ++ plain.text
  opening_notMem := by simp [plain.opening_notMem]
  closing_notMem := by simp [plain.closing_notMem]

theorem Plain.toList_underscored (plain : Plain) :
    plain.underscored.text.toList = '_' :: plain.text.toList := by
  simp [underscored]

namespace Placeholder

/-- The text after the name. -/
def format (placeholder : Placeholder) : String :=
  match placeholder.spec? with
  | none => "\x7d"
  | some spec => ":" ++ spec.text ++ "\x7d"

/-- The text of a placeholder. -/
def text (placeholder : Placeholder) : String :=
  "\x7b" ++ placeholder.name.text ++ placeholder.format

/-- The name consists of ASCII digits, at least one. -/
def Positional (placeholder : Placeholder) : Prop :=
  placeholder.name.text ≠ "" ∧ ∀ c ∈ placeholder.name.text.toList, '0' ≤ c ∧ c ≤ '9'

instance (placeholder : Placeholder) : Decidable placeholder.Positional :=
  inferInstanceAs (Decidable (_ ∧ _))

/-- The placeholder with an underscore before a name of digits. -/
def rename (placeholder : Placeholder) : Placeholder :=
  if placeholder.Positional then
    { placeholder with
      name := placeholder.name.underscored
      colon_notMem := by simp [Plain.underscored, placeholder.colon_notMem] }
  else
    placeholder

end Placeholder

namespace Segment

/-- The text of a segment. -/
def text : Segment → String
  | literal plain => plain.text
  | opening => "\x7b\x7b"
  | closing => "\x7d\x7d"
  | argument placeholder => placeholder.text

/-- The name of a placeholder. -/
def name? : Segment → Option String
  | argument placeholder => some placeholder.name.text
  | literal _ | opening | closing => none

/-- The segment with an underscore before a name of digits. -/
def rename : Segment → Segment
  | argument placeholder => argument placeholder.rename
  | literal plain => literal plain
  | opening => opening
  | closing => closing

/-- What the scanner makes of a segment. -/
def pieces : Segment → List Piece
  | literal plain => plain.text.toList.map .char
  | opening => [.escape]
  | closing => [.char '}', .char '}']
  | argument placeholder =>
      .argument placeholder.name.text.toList :: placeholder.format.toList.map .char

end Segment

/-- Segments one after another. -/
def message (segments : List Segment) : String :=
  String.join (segments.map Segment.text)

variable {name : List Char} {c : Char}

/-- The scanner takes a name up to the character that ends it. -/
theorem pieces_argument (hopening : '{' ∉ name) (hname : ∀ c ∈ name, endsName c = false)
    (hc : endsName c = true) (rest : List Char) :
    pieces ('{' :: (name ++ c :: rest)) = .argument name :: pieces (c :: rest) := by
  refine pieces_named (fun hhead => hopening (List.mem_of_mem_head? hhead)) hname ?_
  rintro _ ⟨⟩
  exact hc

namespace Placeholder

variable (placeholder : Placeholder)

theorem positional_iff :
    isPositional placeholder.name.text.toList = true ↔ placeholder.Positional :=
  isPositional_toList_iff placeholder.name.text

theorem toList_text :
    placeholder.text.toList =
      '{' :: (placeholder.name.text.toList ++ placeholder.format.toList) := by
  simp [text]

/-- Renaming puts an underscore before the name and leaves the rest as it is. -/
theorem toList_text_rename :
    placeholder.rename.text.toList =
      '{' :: (if placeholder.Positional then '_' :: placeholder.name.text.toList
        else placeholder.name.text.toList) ++ placeholder.format.toList := by
  rw [toList_text, rename]
  by_cases h : placeholder.Positional
  · rw [if_pos h, if_pos h, Plain.toList_underscored]
    rfl
  · rw [if_neg h, if_neg h]
    rfl

/-- Nothing in a name ends it. -/
theorem endsName_eq_false : ∀ c ∈ placeholder.name.text.toList, endsName c = false := by
  intro c hc
  have hclosing := ne_of_mem_of_not_mem hc placeholder.name.closing_notMem
  have hcolon := ne_of_mem_of_not_mem hc placeholder.colon_notMem
  simp [endsName, hclosing, hcolon]

/-- What follows a name ends it. -/
theorem exists_format :
    ∃ c rest, placeholder.format.toList = c :: rest ∧ endsName c = true := by
  unfold format
  cases placeholder.spec? with
  | none => exact ⟨_, _, rfl, by decide⟩
  | some spec => exact ⟨':', spec.text.toList ++ ['}'], by simp, by decide⟩

/-- The scanner passes over what follows a name. -/
theorem opening_notMem_format : '{' ∉ placeholder.format.toList := by
  unfold format
  cases placeholder.spec? with
  | none => decide
  | some spec => simp [spec.opening_notMem]

end Placeholder

namespace Segment

/-- The scanner takes a segment for what it is, whatever follows. -/
theorem pieces_text_append (segment : Segment) (rest : List Char) :
    Template.pieces (segment.text.toList ++ rest) = segment.pieces ++ Template.pieces rest := by
  cases segment with
  | literal plain => exact pieces_append plain.opening_notMem rest
  | opening =>
    change Template.pieces ('{' :: '{' :: rest) = _
    rw [Template.pieces]
    rfl
  | closing => exact @pieces_append ['}', '}'] (by decide) rest
  | argument placeholder =>
    obtain ⟨c, after, hformat, hc⟩ := placeholder.exists_format
    have hargument := pieces_argument placeholder.name.opening_notMem
      placeholder.endsName_eq_false hc (after ++ rest)
    have hfollows := pieces_append placeholder.opening_notMem_format rest
    rw [hformat, List.cons_append] at hfollows
    rw [hfollows] at hargument
    rw [text, placeholder.toList_text, pieces, hformat, List.cons_append, List.append_assoc,
      List.cons_append, hargument]
    rfl

/-- The only name that the scanner finds in a segment is that of a placeholder. -/
theorem filterMap_name?_pieces (segment : Segment) :
    (segment.pieces.filterMap Piece.name?).map String.ofList = segment.name?.toList := by
  cases segment with
  | literal plain => rw [pieces, filterMap_name?_chars, name?, List.map_nil, Option.toList_none]
  | opening | closing => rfl
  | argument placeholder =>
    rw [pieces, List.filterMap_cons, filterMap_name?_chars]
    exact congrArg ([·]) String.ofList_toList

/-- Renaming the pieces of a segment is renaming the segment. -/
theorem flatMap_rename_pieces (segment : Segment) :
    segment.pieces.flatMap (fun piece => piece.rename.chars) = segment.rename.text.toList := by
  cases segment with
  | literal plain => exact flatMap_rename_chars _
  | opening | closing => rfl
  | argument placeholder =>
    rw [pieces, List.flatMap_cons, flatMap_rename_chars]
    simp only [Piece.rename, Piece.chars, placeholder.positional_iff]
    exact placeholder.toList_text_rename.symm

end Segment

theorem toList_message (segments : List Segment) :
    (message segments).toList = segments.flatMap fun segment => segment.text.toList := by
  rw [message, String.toList_join, List.flatMap_map]

/-- The scanner takes a message for the segments that it was put together from. -/
theorem pieces_message (segments : List Segment) :
    pieces (message segments).toList = segments.flatMap Segment.pieces := by
  rw [toList_message]
  induction segments with
  | nil => rw [List.flatMap_nil, pieces, List.flatMap_nil]
  | cons segment segments ih =>
    rw [List.flatMap_cons, segment.pieces_text_append, ih, List.flatMap_cons]

/-- The arguments of a message are the names of its placeholders. -/
theorem arguments_message (segments : List Segment) :
    arguments (message segments) = segments.filterMap Segment.name? := by
  rw [arguments, pieces_message, List.filterMap_flatMap, List.map_flatMap]
  simp only [Segment.filterMap_name?_pieces]
  exact (List.filterMap_eq_flatMap_toList ..).symm

/-- Renaming a message is renaming its segments. -/
theorem renamePositional_message (segments : List Segment) :
    renamePositional (message segments) = message (segments.map Segment.rename) := by
  apply String.toList_inj.mp
  rw [renamePositional, String.toList_ofList, pieces_message, List.flatMap_assoc, toList_message,
    List.flatMap_map]
  simp only [Segment.flatMap_rename_pieces]

/-- Every message is read as it was put together: its arguments are the names of its placeholders,
and renaming it renames the positional ones. The loops from brace to brace come to the same. -/
theorem scan_message (segments : List Segment) :
    let names := segments.filterMap Segment.name?
    let renamed := message (segments.map Segment.rename)
    (arguments (message segments) = names ∧ collectedNames (message segments) = names) ∧
      (∀ name, references (message segments) name = true ↔
        ∃ placeholder, .argument placeholder ∈ segments ∧ placeholder.name.text = name) ∧
      renamePositional (message segments) = renamed ∧ renamedText (message segments) = renamed := by
  intro names renamed
  have harguments : arguments (message segments) = names := arguments_message segments
  have hrenamed : renamePositional (message segments) = renamed := renamePositional_message segments
  refine ⟨⟨harguments, (collectedNames_eq _).trans harguments⟩, fun name => ?_, hrenamed,
    (renamedText_eq _).trans hrenamed⟩
  rw [references, harguments, List.contains_iff_mem, List.mem_filterMap]
  constructor
  · rintro ⟨segment, hmem, hname⟩
    cases segment with
    | literal | opening | closing => cases hname
    | argument placeholder => exact ⟨placeholder, hmem, Option.some.inj hname⟩
  · rintro ⟨placeholder, hmem, rfl⟩
    exact ⟨.argument placeholder, hmem, rfl⟩

/-- Braces in a row are told apart from the left: a doubled one, a placeholder and a doubled one. -/
example :
    let zero : Placeholder := ⟨⟨"0", by decide, by decide⟩, by decide, none⟩
    let one : Placeholder :=
      ⟨⟨"1", by decide, by decide⟩, by decide, some ⟨">4", by decide, by decide⟩⟩
    renamePositional (message [.opening, .argument zero, .closing, .argument one, .closing]) =
      "\x7b\x7b\x7b_0\x7d\x7d\x7d\x7b_1:>4\x7d\x7d\x7d" := by
  cbv

end RandomAccess.Template
