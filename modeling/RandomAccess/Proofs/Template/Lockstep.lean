import Mathlib.Data.List.Basic
import RandomAccess.Proofs.Template.Scanner

/-!
# Collecting and renaming in lockstep

One loop decides which names a message refers to, another one writes the message out with marked
names. On every text, well-formed or not, they take their turns at the same braces and end with the
same text left. The text that is written out is scanned again later; there the scanner finds the
placeholders of the message in their order, with an underscore before each positional name, and
nothing more to rename.
-/

namespace RandomAccess.Template

/-- The name under which a placeholder is found again in the renamed message. -/
def renamed (name : String) : String :=
  if Positional name then "_" ++ name else name

theorem positional_ofList_iff (name : List Char) :
    Positional (String.ofList name) ↔ isPositional name = true := by
  rw [← isPositional_toList_iff, String.toList_ofList]

theorem ofList_marked (name : List Char) :
    String.ofList (mark name ++ name) = renamed (String.ofList name) := by
  have hiff := positional_ofList_iff name
  unfold mark renamed
  by_cases h : isPositional name = true
  · rw [if_pos h, if_pos (hiff.mpr h), String.ofList_append]
  · rw [if_neg h, if_neg (h ∘ hiff.mp), List.nil_append]

section Rescanning

variable {name rest : List Char}

/-- A marked name takes no second mark. -/
theorem mark_marked (name : List Char) : mark (mark name ++ name) = [] := by
  unfold mark
  split
  · rfl
  · rw [List.nil_append, if_neg ‹_›]

theorem Piece.rename_rename (piece : Piece) : piece.rename.rename = piece.rename := by
  cases piece with
  | char | escape => rfl
  | argument name => rw [rename_argument, rename_argument, mark_marked, List.nil_append]

/-- A mark ends no name. -/
theorem endsName_of_mem_marked (h : ∀ c ∈ name, endsName c = false) :
    ∀ c ∈ mark name ++ name, endsName c = false := by
  intro c hc
  rw [List.mem_append, mark] at hc
  rcases hc with hc | hc
  · split at hc
    · rw [List.mem_singleton.mp hc]
      decide
    · cases hc
  · exact h c hc

/-- A mark doubles no brace. -/
theorem head?_marked (h : name.head? ≠ some '{') : (mark name ++ name).head? ≠ some '{' := by
  unfold mark
  split
  · rw [List.singleton_append, List.head?_cons]
    decide
  · exact h

/-- What ends a name is still there in the renamed text. -/
theorem head?_flatMap_rename (h : ∀ c ∈ rest.head?, endsName c = true) :
    ∀ c ∈ ((pieces rest).flatMap fun piece => piece.rename.chars).head?, endsName c = true := by
  cases rest with
  | nil => rwa [pieces]
  | cons c rest =>
    have hc : c ≠ '{' := by
      rintro rfl
      exact absurd (h '{' rfl) (by decide)
    rw [pieces_cons hc]
    exact h

/-- Scanning the renamed text finds the renamed pieces, whatever the text was. -/
theorem pieces_flatMap_rename (cs : List Char) :
    pieces ((pieces cs).flatMap fun piece => piece.rename.chars) =
      (pieces cs).map Piece.rename := by
  fun_induction pieces cs with
  | case1 => rw [List.flatMap_nil, pieces, List.map_nil]
  | case2 rest ih =>
    rw [List.flatMap_cons, List.map_cons, ← ih]
    change pieces ('{' :: '{' :: _) = _
    rw [pieces]
    rfl
  | case3 rest hsingle ih =>
    have hname : ∀ c ∈ rest.takeWhile (fun c => !endsName c), endsName c = false := by
      intro c hc
      simpa using List.mem_takeWhile_imp hc
    have hstop : ∀ c ∈ (rest.dropWhile fun c => !endsName c).head?, endsName c = true := by
      intro c hc
      simpa [Option.mem_def.mp hc] using List.head?_dropWhile_not (fun c => !endsName c) rest
    have hfirst : (rest.takeWhile fun c => !endsName c).head? ≠ some '{' := by
      intro hhead
      rw [List.head?_takeWhile, Option.filter_eq_some_iff] at hhead
      obtain ⟨tail, rfl⟩ := List.head?_eq_some_iff.mp hhead.1
      exact hsingle tail rfl
    rw [List.flatMap_cons, List.map_cons, ← ih, chars_rename_argument, List.cons_append,
      pieces_named (head?_marked hfirst) (endsName_of_mem_marked hname)
        (head?_flatMap_rename hstop), rename_argument]
  | case4 c rest _ hc ih =>
    rw [List.flatMap_cons, List.map_cons, ← ih]
    exact pieces_cons hc _

end Rescanning

/-- The renamed message has the same placeholders in the same order, each under its new name. -/
theorem arguments_renamePositional (message : String) :
    arguments (renamePositional message) = (arguments message).map renamed := by
  have hname (piece : Piece) :
      piece.rename.name?.map String.ofList = (piece.name?.map String.ofList).map renamed := by
    cases piece with
    | char | escape => rfl
    | argument name =>
      rw [rename_argument]
      exact congrArg some (ofList_marked name)
  simp only [arguments, renamePositional, String.toList_ofList, pieces_flatMap_rename,
    List.map_filterMap, List.filterMap_map]
  exact List.filterMap_congr fun piece _ => hname piece

/-- After one renaming nothing is left to rename. -/
theorem renamePositional_renamePositional (message : String) :
    renamePositional (renamePositional message) = renamePositional message := by
  have hrename (piece : Piece) : piece.rename.rename.chars = piece.rename.chars := by
    rw [Piece.rename_rename]
  rw [renamePositional, renamePositional, String.toList_ofList, pieces_flatMap_rename,
    List.flatMap_map]
  simp only [hrename]

section Insertions

variable (blocks : List (List Char × List Char)) (last : List Char)

/-- A text with something inserted in it: each block is a text and a name, and before the name
stand an opening brace and what is inserted. -/
def woven (inserted : List Char) : List Char :=
  blocks.flatMap (fun block => block.1 ++ '{' :: (inserted ++ block.2)) ++ last

theorem length_woven (c : Char) :
    (woven blocks last [c]).length = (woven blocks last []).length + blocks.length := by
  induction blocks with
  | nil => rfl
  | cons block blocks ih =>
    simp only [woven, List.flatMap_cons, List.length_append, List.length_cons,
      List.length_nil] at ih ⊢
    omega

/-- A text in front goes to the first block, or to the end where there is none. -/
theorem exists_woven_append (text : List Char) :
    ∃ blocks' last', blocks'.map Prod.snd = blocks.map Prod.snd ∧
      ∀ inserted, woven blocks' last' inserted = text ++ woven blocks last inserted := by
  cases blocks with
  | nil => exact ⟨[], text ++ last, rfl, fun _ => rfl⟩
  | cons block blocks =>
    refine ⟨(text ++ block.1, block.2) :: blocks, last, rfl, fun inserted => ?_⟩
    simp [woven]

/-- The renamed pieces are the pieces with an underscore put in for each positional name. -/
theorem exists_woven_pieces (pieces : List Piece) :
    ∃ blocks last, blocks.map Prod.snd = (pieces.filterMap Piece.name?).filter isPositional ∧
      woven blocks last [] = pieces.flatMap Piece.chars ∧
      woven blocks last ['_'] = pieces.flatMap fun piece => piece.rename.chars := by
  induction pieces with
  | nil => exact ⟨[], [], rfl, rfl, rfl⟩
  | cons piece pieces ih =>
    obtain ⟨blocks, last, hnames, hplain, hrenamed⟩ := ih
    -- a positional name opens a block, any other piece goes to the block that follows
    by_cases h : ∃ name, piece = .argument name ∧ isPositional name = true
    · obtain ⟨name, rfl, hname⟩ := h
      have hmark : mark name = ['_'] := if_pos hname
      refine ⟨([], name) :: blocks, last, ?_, ?_, ?_⟩
      · rw [List.map_cons, hnames]
        exact (List.filter_cons_of_pos hname).symm
      · simp [woven, ← hplain, Piece.chars]
      · simp [woven, ← hrenamed, chars_rename_argument, hmark]
    · have hsame : piece.rename = piece ∧
          ((piece :: pieces).filterMap Piece.name?).filter isPositional =
            (pieces.filterMap Piece.name?).filter isPositional := by
        cases piece with
        | char | escape => exact ⟨rfl, rfl⟩
        | argument name =>
          have hname : ¬ isPositional name = true := fun hname => h ⟨name, rfl, hname⟩
          exact ⟨by rw [Piece.rename, if_neg hname], List.filter_cons_of_neg hname⟩
      obtain ⟨blocks', last', hnames', hwoven⟩ := exists_woven_append blocks last piece.chars
      refine ⟨blocks', last', ?_, ?_, ?_⟩
      · rw [hnames', hnames, hsame.2]
      · rw [hwoven, hplain, List.flatMap_cons]
      · rw [hwoven, hrenamed, List.flatMap_cons, hsame.1]

end Insertions

section Turns

/-- A loop comes from one state to another in so many turns, and takes no turn after them. -/
inductive EndsAfter {σ : Type} (turn : σ → Option σ) : Nat → σ → σ → Prop
  | stop {s : σ} : turn s = none → EndsAfter turn 0 s s
  | turn {s t u : σ} {turns : Nat} : turn s = some t → EndsAfter turn turns t u →
      EndsAfter turn (turns + 1) s u

/-- One turn of the loop that collects the names. -/
def collectTurn : List (List Char) × List Char → Option (List (List Char) × List Char)
  | (names, rest) =>
    match nextBrace? rest with
    | none => none
    | some (_, '{' :: escaped) => some (names, escaped)
    | some (_, after) =>
        some (names ++ [after.take (nameLength after)], after.drop (nameLength after))

/-- One turn of the loop that puts the message out. -/
def putOutTurn : List Char × List Char → Option (List Char × List Char)
  | (out, rest) =>
    match nextBrace? rest with
    | none => none
    | some (passed, '{' :: escaped) => some (out ++ passed ++ ['{'], escaped)
    | some (passed, after) =>
        let name := after.take (nameLength after)
        some (out ++ passed ++ mark name ++ name, after.drop (nameLength after))

variable (names : List (List Char)) (out rest : List Char)

theorem collect_eq_of_turn :
    collect names rest =
      match collectTurn (names, rest) with
      | none => names
      | some (names, rest) => collect names rest := by
  rw [collect, collectTurn]
  split <;> simp_all

theorem putOut_eq_of_turn :
    putOut out rest =
      match putOutTurn (out, rest) with
      | none => out ++ rest
      | some (out, rest) => putOut out rest := by
  rw [putOut, putOutTurn]
  split <;> simp_all

/-- Either both loops are at their end or both take a turn, and then the same text is left. -/
theorem turn_cases :
    (collectTurn (names, rest) = none ∧ putOutTurn (out, rest) = none) ∨
      ∃ names' out' rest', rest'.length < rest.length ∧
        collectTurn (names, rest) = some (names', rest') ∧
        putOutTurn (out, rest) = some (out', rest') := by
  rw [collectTurn, putOutTurn]
  cases hbrace : nextBrace? rest with
  | none => exact .inl ⟨rfl, rfl⟩
  | some found =>
    obtain ⟨passed, after⟩ := found
    have hlt := length_lt_of_nextBrace? hbrace
    right
    by_cases hdouble : ∃ escaped, after = '{' :: escaped
    · obtain ⟨escaped, rfl⟩ := hdouble
      rw [List.length_cons] at hlt
      exact ⟨_, _, escaped, by omega, rfl, rfl⟩
    · have hdrop : (after.drop (nameLength after)).length < rest.length := by
        rw [List.length_drop]
        omega
      refine ⟨names ++ [after.take (nameLength after)],
        out ++ passed ++ mark (after.take (nameLength after)) ++ after.take (nameLength after),
        after.drop (nameLength after), hdrop, ?_, ?_⟩
      · split <;> simp_all
      · split <;> simp_all

/-- On every text both loops end, after the same number of turns and with the same text left. -/
theorem loops_end :
    ∃ turns put last, EndsAfter collectTurn turns (names, rest) (collect names rest, last) ∧
      EndsAfter putOutTurn turns (out, rest) (put, last) ∧ putOut out rest = put ++ last := by
  induction hlength : rest.length using Nat.strong_induction_on generalizing names out rest with
  | _ length ih =>
    rcases turn_cases names out rest with
      ⟨hcollect, hput⟩ | ⟨names', out', rest', hlt, hcollect, hput⟩
    · refine ⟨0, out, rest, ?_, .stop hput, ?_⟩
      · rw [collect_eq_of_turn, hcollect]
        exact .stop hcollect
      · rw [putOut_eq_of_turn, hput]
    · obtain ⟨turns, put, last, hnames, htext, hout⟩ := ih _ (hlength ▸ hlt) names' out' rest' rfl
      refine ⟨turns + 1, put, last, ?_, .turn hput htext, ?_⟩
      · rw [collect_eq_of_turn, hcollect]
        exact .turn hcollect hnames
      · rw [putOut_eq_of_turn, hput]
        exact hout

end Turns

/-- On every message, well-formed or not, both loops take the same turns, and the renamed message is
the message with an underscore inserted before each positional argument. -/
theorem scanners_in_lockstep (message : String) :
    let positional := (arguments message).filter Positional
    (∃ turns names put last,
      EndsAfter collectTurn turns ([], message.toList) (names, last) ∧
      EndsAfter putOutTurn turns ([], message.toList) (put, last) ∧
      names.map String.ofList = arguments message ∧
      String.ofList (put ++ last) = renamePositional message) ∧
    arguments (renamePositional message) = (arguments message).map renamed ∧
    (renamePositional message = message ↔ ∀ name ∈ arguments message, ¬ Positional name) ∧
    renamePositional (renamePositional message) = renamePositional message ∧
    (renamePositional message).length = message.length + positional.length ∧
    ∃ blocks last, blocks.map (String.ofList ∘ Prod.snd) = positional ∧
      woven blocks last [] = message.toList ∧
      woven blocks last ['_'] = (renamePositional message).toList := by
  intro positional
  obtain ⟨turns, put, rest, hcollect, hput, hout⟩ := loops_end [] [] message.toList
  obtain ⟨blocks, last, hnames, hplain, hrenamed⟩ := exists_woven_pieces (pieces message.toList)
  rw [flatMap_chars_pieces] at hplain
  have hwoven : woven blocks last ['_'] = (renamePositional message).toList := by
    rw [hrenamed, renamePositional, String.toList_ofList]
  have hpositional : blocks.map (String.ofList ∘ Prod.snd) = positional := by
    have hdecide (name : List Char) : decide (Positional (String.ofList name)) =
        isPositional name := by
      rw [← Bool.coe_iff_coe, decide_eq_true_iff, positional_ofList_iff]
    rw [← List.map_map, hnames, show positional = _ from List.filter_map]
    exact congrArg _ (List.filter_congr fun name _ => (hdecide name).symm)
  have hlength : (renamePositional message).length = message.length + positional.length := by
    rw [← String.length_toList, ← hwoven, length_woven, hplain, String.length_toList,
      ← hpositional, List.length_map]
  have hunchanged : renamePositional message = message ↔ positional = [] := by
    constructor
    · intro hsame
      rw [hsame] at hlength
      exact List.length_eq_zero_iff.mp (by omega)
    · intro hnone
      rw [hnone, List.map_eq_nil_iff] at hpositional
      subst hpositional
      exact String.toList_inj.mp (hwoven.symm.trans hplain)
  refine ⟨⟨turns, _, put, rest, hcollect, hput, ?_, ?_⟩, arguments_renamePositional message, ?_,
    renamePositional_renamePositional message, hlength, blocks, last, hpositional, hplain, hwoven⟩
  · exact collectedNames_eq message
  · rw [← hout]
    exact renamedText_eq message
  · rw [hunchanged, List.filter_eq_nil_iff]
    simp only [decide_eq_true_eq]

end RandomAccess.Template
