/-!
# Message templates

A template is a text with arguments in braces. An argument is an opening brace with the name
after it, up to a closing brace, a colon or the end of the text; the rest of it, a colon with a
format perhaps, is text again. Two opening braces stand for a brace. The pieces of a template
hold all of its characters, so any rewriting of names leaves the rest as it is.
-/

namespace RandomAccess.Template

/-- A part of a template. -/
inductive Piece where
  /-- A character that stands for itself, or closes an argument. -/
  | char (c : Char)
  /-- Two opening braces. -/
  | escape
  /-- An opening brace and the name after it. -/
  | argument (name : List Char)
  deriving DecidableEq, Repr, Inhabited

/-- Whether a name ends before this character. -/
def endsName (c : Char) : Bool :=
  c == '}' || c == ':'

/-- The pieces of a template. -/
def pieces : List Char → List Piece
  | [] => []
  | '{' :: '{' :: rest => .escape :: pieces rest
  | '{' :: rest =>
      .argument (rest.takeWhile fun c => !endsName c) ::
        pieces (rest.dropWhile fun c => !endsName c)
  | c :: rest => .char c :: pieces rest
termination_by cs => cs.length
decreasing_by
  all_goals
    have := (List.dropWhile_sublist (l := rest) fun c => !endsName c).length_le
    simp only [List.length_cons]
    omega

/-- The characters of a piece. -/
def Piece.chars : Piece → List Char
  | char c => [c]
  | escape => ['{', '{']
  | argument name => '{' :: name

/-- The name of an argument. -/
def Piece.name? : Piece → Option (List Char)
  | argument name => some name
  | char _ | escape => none

/-- The pieces hold exactly the characters of the template. -/
theorem flatMap_chars_pieces (cs : List Char) : (pieces cs).flatMap Piece.chars = cs := by
  fun_induction pieces cs with
  | case1 => rfl
  | case2 rest ih => simp [Piece.chars, ih]
  | case3 rest _ ih => simp [Piece.chars, ih]
  | case4 c rest _ _ ih => simp [Piece.chars, ih]

/-- The names of the arguments in order. -/
def arguments (template : String) : List String :=
  ((pieces template.toList).filterMap Piece.name?).map String.ofList

/-- Whether a name is among the arguments. -/
def references (template name : String) : Bool :=
  (arguments template).contains name

/-- Whether an argument is named by a position: a non-empty sequence of ASCII digits. -/
def isPositional (name : List Char) : Bool :=
  !name.isEmpty && name.all Char.isDigit

/-- The piece with a positional name turned into an identifier. -/
def Piece.rename : Piece → Piece
  | argument name => argument (if isPositional name then '_' :: name else name)
  | char c => char c
  | escape => escape

/-- The template with all positional names turned into identifiers. -/
def renamePositional (template : String) : String :=
  String.ofList ((pieces template.toList).flatMap fun piece => piece.rename.chars)

end RandomAccess.Template
