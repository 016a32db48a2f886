import RandomAccess.Derive.Item
import RandomAccess.Derive.Layout
import RandomAccess.Template.Scan

/-!
# The derived display

For each variant there is an arm that binds the fields which the message refers to, and only
those, and passes them by name to the formatting of the message. The fields of a tuple variant
have no names of their own: field 1 is bound as `_1`, and the message is rewritten to match.
-/

namespace RandomAccess.Derive

/-- What an arm matches. -/
inductive Pattern where
  /-- Binds nothing, as there are no fields. -/
  | unit
  /-- Binds the listed fields and leaves the others out. -/
  | named (fields : List String)
  /-- Has a name for each field, or nothing where the field is not bound. -/
  | tuple (slots : List (Option String))
  deriving DecidableEq, Repr, Inhabited

/-- The arm of a variant. -/
structure Arm where
  /-- The name of the variant. -/
  variant : String
  /-- The fields that the arm binds. -/
  pattern : Pattern
  /-- The message, with the names that the pattern binds. -/
  format : String
  /-- The names passed to the formatting, each with the value bound to it. -/
  arguments : List String
  deriving DecidableEq, Repr, Inhabited

/-- The display of an enumeration. -/
structure Display where
  /-- The name of the enumeration. -/
  name : String
  /-- The arms in the order of the variants. -/
  arms : List Arm
  deriving DecidableEq, Repr, Inhabited

/-- The name under which a field of a tuple variant is bound. -/
def slotName (index : Nat) : String :=
  "_" ++ index.repr

/-- The fields of a tuple variant with the names under which the message refers to them. -/
def slots (message : String) (count : Nat) : List (Option String) :=
  (List.range count).map fun index =>
    if Template.references message index.repr then some (slotName index) else none

/-- The arm of a variant with the given message. -/
def Arm.ofMessage (variant : String) (message : String) : Fields → Arm
  | .unit => ⟨variant, .unit, message, []⟩
  | .named names =>
      let bound := names.filter (Template.references message)
      ⟨variant, .named bound, message, bound⟩
  | .tuple count =>
      let slots := slots message count
      ⟨variant, .tuple slots, Template.renamePositional message, slots.filterMap id⟩

/-- The arm of a variant. -/
def Arm.ofVariant (variant : Variant) : Except Rejection Arm := do
  let message ← variant.message
  return .ofMessage variant.name message variant.fields

/-- The display of an item. Of several rejected variants the first one counts. -/
def Display.ofItem : Item → Except Rejection Display
  | .enumeration name variants => return ⟨name, ← variants.mapM Arm.ofVariant⟩
  | .other => .error .notEnumeration

/-- A pattern after the name of its variant. -/
def Pattern.tokens : Pattern → List String
  | unit => []
  | named fields => [braced (terminated fields ++ [".."])]
  | tuple slots => [parenthesized (separated (slots.map (·.getD "_")))]

/-- What follows the format in the call that writes the message. -/
def Arm.argumentTokens (arm : Arm) : List String :=
  match arm.pattern with
  | .unit => []
  | .named _ | .tuple _ =>
      "," :: separated (arm.arguments.map fun name => sequence [name, "=", name])

/-- An arm as source text. -/
def Arm.text (arm : Arm) : String :=
  sequence <|
    ["Self", "::", arm.variant] ++ arm.pattern.tokens ++
      ["=>", "::", "std", "::", "write", "!",
        parenthesized (["f", ",", literal arm.format] ++ arm.argumentTokens), ","]

/-- A display as source text: the display itself, and the error that it makes of its type. -/
def Display.text (display : Display) : String :=
  sequence [
    "impl", "::", "std", "::", "fmt", "::", "Display", "for", display.name,
    braced [
      "fn", "fmt",
      parenthesized ["&", "self", ",", "f", ":", "&", "mut",
        "::", "std", "::", "fmt", "::", "Formatter", "<", "'_", ">"],
      "->", "::", "std", "::", "fmt", "::", "Result",
      braced ["match", "self", braced (display.arms.map Arm.text)]],
    "impl", "::", "std", "::", "error", "::", "Error", "for", display.name, braced []]

/-- A rejection as source text that fails to compile with its message. -/
def Rejection.text (rejection : Rejection) : String :=
  sequence ["::", "core", "::", "compile_error", "!", braced [literal rejection.message]]

/-- The source text that stands for an item's derivation, whether it succeeds or not. -/
def expansion (item : Item) : String :=
  match Display.ofItem item with
  | .ok display => display.text
  | .error rejection => rejection.text

end RandomAccess.Derive
