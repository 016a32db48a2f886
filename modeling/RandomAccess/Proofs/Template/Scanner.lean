import Mathlib.Data.List.TakeWhile
import RandomAccess.Template.Scan

/-!
# Scanning from brace to brace

The names of a message and the message with its positional names renamed are found by two loops.
Each looks for the next opening brace, passes over it and another one right after it, and goes on at
the end of the name that follows otherwise. They share no code, but they stop at the same places:
what one collects and the other puts out is told by the pieces of the message.
-/

namespace RandomAccess.Template

/-- The text up to the next opening brace, this one included, and the text after it. -/
def nextBrace? (rest : List Char) : Option (List Char × List Char) :=
  (rest.findIdx? (· == '{')).map fun position =>
    (rest.take (position + 1), rest.drop (position + 1))

/-- How far a name goes: to what ends it, or to the end of the text. -/
def nameLength (after : List Char) : Nat :=
  (after.findIdx? endsName).getD after.length

/-- There is no next opening brace exactly if the text has none. -/
theorem nextBrace?_eq_none {rest : List Char} (h : nextBrace? rest = none) : '{' ∉ rest := by
  rw [nextBrace?, Option.map_eq_none_iff, List.findIdx?_eq_none_iff] at h
  intro hmem
  exact absurd (h _ hmem) (by decide)

/-- The next opening brace is the first one. -/
theorem nextBrace?_eq_some {rest passed after : List Char}
    (h : nextBrace? rest = some (passed, after)) :
    ∃ text, '{' ∉ text ∧ passed = text ++ ['{'] ∧ rest = text ++ '{' :: after := by
  obtain ⟨position, hfound, hpair⟩ := Option.map_eq_some_iff.mp h
  obtain ⟨rfl, rfl⟩ := Prod.mk.inj hpair
  obtain ⟨hlt, hbrace, hfirst⟩ := List.findIdx?_eq_some_iff_getElem.mp hfound
  have hat : rest[position] = '{' := eq_of_beq hbrace
  refine ⟨rest.take position, ?_, ?_, ?_⟩
  · intro hmem
    obtain ⟨earlier, hearlier, heq⟩ := List.mem_take_iff_getElem.mp hmem
    exact hfirst earlier (by omega) (beq_iff_eq.mpr heq)
  · rw [← hat]
    exact List.take_succ_eq_append_getElem hlt
  · rw [← hat, ← List.drop_eq_getElem_cons hlt, List.take_append_drop]

/-- What follows the next opening brace is shorter. -/
theorem length_lt_of_nextBrace? {rest passed after : List Char}
    (h : nextBrace? rest = some (passed, after)) : after.length < rest.length := by
  obtain ⟨text, -, -, rfl⟩ := nextBrace?_eq_some h
  rw [List.length_append, List.length_cons]
  omega

/-- The loop that collects the names. -/
def collect (names : List (List Char)) (rest : List Char) : List (List Char) :=
  match _ : nextBrace? rest with
  | none => names
  | some (_, '{' :: escaped) => collect names escaped
  | some (_, after) =>
      collect (names ++ [after.take (nameLength after)]) (after.drop (nameLength after))
termination_by rest.length
decreasing_by
  · have := length_lt_of_nextBrace? ‹_›
    rw [List.length_cons] at this
    omega
  · have := length_lt_of_nextBrace? ‹_›
    rw [List.length_drop]
    omega

/-- A name of ASCII digits, at least one. -/
def Positional (name : String) : Prop :=
  name ≠ "" ∧ ∀ c ∈ name.toList, '0' ≤ c ∧ c ≤ '9'

instance (name : String) : Decidable (Positional name) :=
  inferInstanceAs (Decidable (_ ∧ _))

theorem isPositional_toList_iff (name : String) :
    isPositional name.toList = true ↔ Positional name := by
  have hempty : name.toList = [] ↔ name = "" := String.toList_eq_nil_iff
  simp [isPositional, Positional, hempty, Char.isDigit, Char.le_def]

/-- What is put before a name. -/
def mark (name : List Char) : List Char :=
  if isPositional name then ['_'] else []

/-- The loop that puts out the message with an underscore before the positional names. -/
def putOut (out rest : List Char) : List Char :=
  match _ : nextBrace? rest with
  | none => out ++ rest
  | some (passed, '{' :: escaped) => putOut (out ++ passed ++ ['{']) escaped
  | some (passed, after) =>
      let name := after.take (nameLength after)
      putOut (out ++ passed ++ mark name ++ name) (after.drop (nameLength after))
termination_by rest.length
decreasing_by
  · have := length_lt_of_nextBrace? ‹_›
    rw [List.length_cons] at this
    omega
  · have := length_lt_of_nextBrace? ‹_›
    rw [List.length_drop]
    omega

/-- The names that the first loop comes to. -/
def collectedNames (template : String) : List String :=
  (collect [] template.toList).map String.ofList

/-- The text that the second loop comes to. -/
def renamedText (template : String) : String :=
  String.ofList (putOut [] template.toList)

variable {text : List Char}

/-- A text without opening braces is passed over. -/
theorem pieces_append (h : '{' ∉ text) (rest : List Char) :
    pieces (text ++ rest) = text.map .char ++ pieces rest := by
  induction text with
  | nil => rfl
  | cons c text ih =>
    rw [List.mem_cons, not_or] at h
    have hc : ¬ c = '{' := fun he => h.1 he.symm
    rw [List.cons_append, pieces, ih h.2]
    · rfl
    · exact fun _ he => absurd he hc
    · exact hc

/-- One character other than an opening brace is passed over. -/
theorem pieces_cons {c : Char} (h : c ≠ '{') (rest : List Char) :
    pieces (c :: rest) = .char c :: pieces rest :=
  pieces_append (fun hmem => h (List.mem_singleton.mp hmem).symm) rest

/-- The pieces of a text without opening braces are its characters. -/
theorem pieces_eq_map (h : '{' ∉ text) : pieces text = text.map .char := by
  have happend := pieces_append h []
  rwa [List.append_nil, pieces, List.append_nil] at happend

/-- A name is taken as far as it goes. -/
theorem pieces_of_single {after : List Char} (h : ∀ escaped, after ≠ '{' :: escaped) :
    pieces ('{' :: after) =
      .argument (after.take (nameLength after)) :: pieces (after.drop (nameLength after)) := by
  have hlength : nameLength after = after.findIdx fun c => !!endsName c := by
    simp only [Bool.not_not]
    exact List.findIdx_eq_getD_findIdx?.symm
  rw [pieces, hlength, ← List.takeWhile_eq_take_findIdx_not, ← List.dropWhile_eq_drop_findIdx_not]
  exact h

/-- A name is taken up to what ends it, unless its first character doubles the brace. -/
theorem pieces_named {name rest : List Char} (hsingle : name.head? ≠ some '{')
    (hname : ∀ c ∈ name, endsName c = false) (hrest : ∀ c ∈ rest.head?, endsName c = true) :
    pieces ('{' :: (name ++ rest)) = .argument name :: pieces rest := by
  have hgoes : ∀ c ∈ name, (!endsName c) = true := by
    intro c hmem
    rw [hname c hmem, Bool.not_false]
  have hstops : rest.takeWhile (fun c => !endsName c) = [] ∧
      rest.dropWhile (fun c => !endsName c) = rest := by
    cases rest with
    | nil => exact ⟨rfl, rfl⟩
    | cons c rest =>
      have hc : ¬ (!endsName c) = true := by simp [hrest c rfl]
      exact ⟨List.takeWhile_cons_of_neg hc, List.dropWhile_cons_of_neg hc⟩
  rw [pieces, List.takeWhile_append_of_pos hgoes, List.dropWhile_append_of_pos hgoes, hstops.1,
    hstops.2, List.append_nil]
  -- neither the name nor what ends it makes the brace a doubled one
  intro after heq
  cases name with
  | cons first name => exact hsingle (congrArg some (List.cons.inj heq).1)
  | nil =>
    rw [List.nil_append] at heq
    subst heq
    exact absurd (hrest '{' rfl) (by decide)

/-- Characters have no names. -/
theorem filterMap_name?_chars (text : List Char) :
    (text.map Piece.char).filterMap Piece.name? = [] := by
  rw [List.filterMap_map]
  exact List.filterMap_eq_nil_iff.mpr fun _ _ => rfl

/-- Characters are put out as they are. -/
theorem flatMap_rename_chars (text : List Char) :
    (text.map Piece.char).flatMap (fun piece => piece.rename.chars) = text := by
  rw [List.flatMap_map]
  exact List.flatMap_singleton' text

/-- The name of a renamed argument has its mark. -/
theorem rename_argument (name : List Char) :
    (Piece.argument name).rename = .argument (mark name ++ name) := by
  rw [Piece.rename, mark]
  split <;> rfl

/-- A renamed argument is put out with its mark. -/
theorem chars_rename_argument (name : List Char) :
    (Piece.argument name).rename.chars = '{' :: (mark name ++ name) := by
  rw [rename_argument, Piece.chars]

/-- The names collected are those of the pieces. -/
theorem collect_eq (names : List (List Char)) (rest : List Char) :
    collect names rest = names ++ (pieces rest).filterMap Piece.name? := by
  fun_induction collect names rest with
  | case1 names rest hnone =>
    rw [pieces_eq_map (nextBrace?_eq_none hnone), filterMap_name?_chars, List.append_nil]
  | case2 names rest passed escaped hsome ih =>
    obtain ⟨text, htext, -, rfl⟩ := nextBrace?_eq_some hsome
    rw [ih, pieces_append htext, pieces, List.filterMap_append, filterMap_name?_chars]
    rfl
  | case3 names rest passed after hsingle hsome ih =>
    obtain ⟨text, htext, -, rfl⟩ := nextBrace?_eq_some hsome
    rw [ih, pieces_append htext, pieces_of_single hsingle, List.filterMap_append,
      filterMap_name?_chars, List.append_assoc]
    rfl

/-- What is put out are the renamed pieces. -/
theorem putOut_eq (out rest : List Char) :
    putOut out rest = out ++ (pieces rest).flatMap fun piece => piece.rename.chars := by
  fun_induction putOut out rest with
  | case1 out rest hnone =>
    rw [pieces_eq_map (nextBrace?_eq_none hnone), flatMap_rename_chars]
  | case2 out rest passed escaped hsome ih =>
    obtain ⟨text, htext, rfl, rfl⟩ := nextBrace?_eq_some hsome
    rw [ih, pieces_append htext, pieces, List.flatMap_append, flatMap_rename_chars]
    simp [Piece.rename, Piece.chars]
  | case3 out rest passed after hsingle hsome name ih =>
    obtain ⟨text, htext, rfl, rfl⟩ := nextBrace?_eq_some hsome
    rw [ih, pieces_append htext, pieces_of_single hsingle, List.flatMap_append,
      flatMap_rename_chars, List.flatMap_cons, chars_rename_argument]
    simp [name]

/-- The first loop comes to the arguments. -/
theorem collectedNames_eq (template : String) : collectedNames template = arguments template := by
  rw [collectedNames, collect_eq, List.nil_append, arguments]

/-- The second loop comes to the template with its positional names renamed. -/
theorem renamedText_eq (template : String) : renamedText template = renamePositional template := by
  rw [renamedText, putOut_eq, List.nil_append, renamePositional]

end RandomAccess.Template
