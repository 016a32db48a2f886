/-!
# Items to derive for

An item is an enumeration, whose variants carry fields and attributes, or something for which
nothing can be derived. Of the attributes only those named `error` matter; such an attribute is
meant to hold the message of its variant as its only argument.
-/

namespace RandomAccess.Derive

/-- An attribute of a variant. -/
inductive Attribute where
  /-- An `error` attribute that holds one string literal. -/
  | message (text : String)
  /-- An `error` attribute that holds anything else, or nothing. -/
  | malformed
  /-- An attribute of another name. -/
  | unrelated
  deriving DecidableEq, Repr, Inhabited

/-- The fields of a variant. -/
inductive Fields where
  /-- No fields, and no brackets for any. -/
  | unit
  /-- Fields with names. -/
  | named (names : List String)
  /-- Fields that are only counted, from 0 on. -/
  | tuple (count : Nat)
  deriving DecidableEq, Repr, Inhabited

/-- A variant of an enumeration. -/
structure Variant where
  name : String
  /-- The attributes in the order in which they stand before the variant. -/
  attributes : List Attribute
  fields : Fields
  deriving DecidableEq, Repr, Inhabited

/-- An item of source text. -/
inductive Item where
  | enumeration (name : String) (variants : List Variant)
  /-- A structure or a union. -/
  | other
  deriving DecidableEq, Repr, Inhabited

/-- Why nothing can be derived. -/
inductive Rejection where
  /-- The item is no enumeration. -/
  | notEnumeration
  /-- The variant has no `error` attribute. -/
  | missingMessage (variant : String)
  /-- The variant's `error` attribute is not one string literal. -/
  | malformedMessage
  deriving DecidableEq, Repr, Inhabited

/-- The text of a rejection. -/
def Rejection.message : Rejection → String
  | notEnumeration => "Error can only be derived for enums"
  | missingMessage variant =>
      "missing #[error(\"...\")] attribute on variant `" ++ variant ++ "`"
  | malformedMessage => "expected a string literal, e.g. #[error(\"division by zero\")]"

/-- The message of a variant. The first `error` attribute counts. -/
def Variant.message (variant : Variant) : Except Rejection String :=
  match variant.attributes.find? (· ≠ .unrelated) with
  | some (.message text) => .ok text
  | some _ => .error .malformedMessage
  | none => .error (.missingMessage variant.name)

end RandomAccess.Derive
