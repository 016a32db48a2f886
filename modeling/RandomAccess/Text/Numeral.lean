/-!
# Numbers read from text

A numeral is a sequence of at least one ASCII digit, with an optional sign in front: a plus sign,
or also a minus sign where the number may be negative. Blanks are not skipped, and a number out
of range is no number.
-/

namespace RandomAccess.Text

/-- The number that a non-empty sequence of ASCII digits denotes. -/
def digits? (cs : List Char) : Option Nat :=
  if cs.isEmpty || !cs.all Char.isDigit then none else some (Nat.ofDigitChars 10 cs 0)

/-- A count: no minus sign, and below `2 ^ 64`. -/
def count? (text : String) : Option Nat :=
  let n? := match text.toList with
    | '+' :: cs => digits? cs
    | cs => digits? cs
  n?.filter (· < UInt64.size)

/-- An integer of any size, with an optional sign. -/
def integer? (text : String) : Option Int :=
  match text.toList with
  | '+' :: cs => (digits? cs).map Int.ofNat
  | '-' :: cs => (digits? cs).map fun n => -Int.ofNat n
  | cs => (digits? cs).map Int.ofNat

end RandomAccess.Text
