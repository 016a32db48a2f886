/-!
# Columns, lists and numbers as text

Numbers stand at the right of their column and words at the left; a text that is wider than its
column is written whole. Widths count characters. A list of values is written between brackets.
-/

namespace RandomAccess.Text

/-- The blanks that `text` leaves open in a column of `width` characters. -/
def padding (width : Nat) (text : String) : String :=
  String.ofList (List.replicate (width - text.length) ' ')

/-- The text at the right of a column of at least `width` characters. -/
def alignRight (width : Nat) (text : String) : String :=
  padding width text ++ text

/-- The text at the left of a column of at least `width` characters. -/
def alignLeft (width : Nat) (text : String) : String :=
  text ++ padding width text

theorem length_padding (width : Nat) (text : String) :
    (padding width text).length = width - text.length := by
  simp [padding]

/-- A column is filled, or as wide as its text. -/
theorem length_alignRight (width : Nat) (text : String) :
    (alignRight width text).length = max width text.length := by
  simp only [alignRight, String.length_append, length_padding]
  omega

theorem length_alignLeft (width : Nat) (text : String) :
    (alignLeft width text).length = max width text.length := by
  simp only [alignLeft, String.length_append, length_padding]
  omega

/-- A value in decimal, with a minus sign if it is negative. -/
def decimal (value : Int64) : String :=
  value.toInt.repr

/-- The values between brackets, a comma and a blank between two of them. -/
def bracketed (values : List Int64) : String :=
  "[" ++ ", ".intercalate (values.map decimal) ++ "]"

end RandomAccess.Text
