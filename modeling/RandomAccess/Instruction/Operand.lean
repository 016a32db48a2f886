import RandomAccess.Memory.RegisterFile

/-!
# Operands and targets

An operand gives a value and a target names a register to be written. In text `=v` is the number
itself, `R(a)` register `a`, and `R(R(a))` the register whose index register `a` holds.
-/

namespace RandomAccess

/-- What an instruction takes its value from. -/
inductive Operand where
  /-- The value itself. -/
  | literal (value : Int64)
  /-- A register. -/
  | direct (address : UInt64)
  /-- The register whose index stands in a register. -/
  | indirect (address : UInt64)
  deriving DecidableEq, Repr, Inhabited

/-- The register that an instruction writes. Both modes name it by its index; they differ in what
the logarithmic cost charges for it. -/
inductive Target where
  | literal (address : UInt64)
  | direct (address : UInt64)
  deriving DecidableEq, Repr, Inhabited

namespace Operand

/-- The literal for a position. All positions past the largest value become that value. -/
def position (position : UInt64) : Operand :=
  .literal (Int64.ofNat (min position.toNat Int64.maxValue.toInt.toNat))

/-- The value of an operand. An indirect one must not go through a negative register. -/
def resolve (registers : RegisterFile) : Operand → Except Fault Int64
  | literal value => .ok value
  | direct address => .ok (registers.get address.toNat)
  | indirect address =>
      let inner := registers.get address.toNat
      if inner < 0 then
        .error (.negativeAddress inner)
      else
        .ok (registers.get inner.toInt.toNat)

/-- An operand as text. -/
def text : Operand → String
  | literal value => "=" ++ Text.decimal value
  | direct address => "R(" ++ address.toNat.repr ++ ")"
  | indirect address => "R(R(" ++ address.toNat.repr ++ "))"

end Operand

namespace Target

/-- The index of the register. -/
def address : Target → Nat
  | literal address => address.toNat
  | direct address => address.toNat

/-- The target in the notation of operands, where an address is no larger than a value can be. -/
def operand : Target → Operand
  | literal address => .position address
  | direct address => .direct address

/-- A target as text. -/
def text (target : Target) : String :=
  target.operand.text

end Target

end RandomAccess
