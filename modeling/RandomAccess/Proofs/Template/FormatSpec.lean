import RandomAccess.Proofs.Template.Grammar

/-!
# The format of a placeholder

After the colon of a placeholder it is told how its value is written: to which side it is moved and
what fills the rest, with which sign, how wide and how precise. A width and a precision are numbers,
or are taken from the argument at a position of the call, which is told by the position with a
dollar sign behind it.
-/

namespace RandomAccess.Template

/-- A width or a precision. -/
inductive Count where
  /-- The number that the digits denote. -/
  | number (digits : String) (positional : Positional digits)
  /-- What the argument at the position holds. -/
  | argument (position : Nat)

/-- Where a value stands in its width. -/
inductive Alignment where
  | left
  | center
  | right

/-- How many digits or characters are written. -/
inductive Precision where
  | amount (count : Count)
  /-- What an argument of its own holds, for which no position is told. -/
  | implicit

/-- The words for how a value is written: as it is, for debugging, in a base or with an exponent. -/
def presentations : List String :=
  ["", "?", "x?", "X?", "o", "x", "X", "p", "b", "e", "E"]

/-- What stands after the colon of a placeholder. -/
structure FormatSpec where
  /-- The side, and the character for the rest of the width. -/
  alignment? : Option (Option Char × Alignment)
  /-- A plus sign, for a sign before every number, or a minus sign, which asks for nothing. -/
  sign? : Option Bool
  /-- The other form of the presentation. -/
  alternate : Bool
  /-- Zeros for the rest of the width. -/
  zeros : Bool
  width? : Option Count
  precision? : Option Precision
  presentation : String
  presentation_mem : presentation ∈ presentations

def Count.text : Count → String
  | number digits _ => digits
  | argument position => position.repr ++ "$"

def Alignment.text : Alignment → String
  | left => "<"
  | center => "^"
  | right => ">"

def Precision.text : Precision → String
  | amount count => "." ++ count.text
  | implicit => ".*"

/-- The position that a width or a precision is taken from. -/
def Count.position? : Count → Option Nat
  | number .. => none
  | argument position => some position

namespace FormatSpec

/-- The text of a format: its parts in this order. -/
def text (spec : FormatSpec) : String :=
  String.join [
    spec.alignment?.elim "" fun (fill?, side) => fill?.elim "" String.singleton ++ side.text,
    spec.sign?.elim "" fun plus => if plus then "+" else "-",
    if spec.alternate then "#" else "",
    if spec.zeros then "0" else "",
    spec.width?.elim "" Count.text,
    spec.precision?.elim "" Precision.text,
    spec.presentation]

/-- The positions that a width or a precision is taken from. -/
def positions (spec : FormatSpec) : List Nat :=
  let precision? := spec.precision?.bind fun
    | .amount count => some count
    | .implicit => none
  (spec.width?.toList ++ precision?.toList).filterMap Count.position?

end FormatSpec

/-- The format of the placeholder takes its width or its precision from the argument at the
position. -/
def Placeholder.Takes (placeholder : Placeholder) (position : Nat) : Prop :=
  ∃ spec : FormatSpec,
    placeholder.spec?.map Plain.text = some spec.text ∧ position ∈ spec.positions

/-- Renaming is about names alone. -/
theorem Placeholder.spec?_rename (placeholder : Placeholder) :
    placeholder.rename.spec? = placeholder.spec? := by
  rw [rename]
  split <;> rfl

theorem Placeholder.takes_rename (placeholder : Placeholder) (position : Nat) :
    placeholder.rename.Takes position ↔ placeholder.Takes position := by
  rw [Takes, Takes, spec?_rename]

end RandomAccess.Template
