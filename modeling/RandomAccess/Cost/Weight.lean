import RandomAccess.Instruction.Basic

/-!
# The weight of an instruction

In the uniform model an instruction with an operand costs 1. In the logarithmic model it costs
the bit lengths of all addresses and values that its operand touches. `HALT` is free.
-/

namespace RandomAccess.Cost

/-- How instructions are charged. -/
inductive Model where
  | uniform
  | logarithmic
  deriving DecidableEq, Repr, Inhabited

/-- The number of binary digits of a number; 0 has one. -/
def bitLength (n : Nat) : Nat :=
  if n = 0 then 1 else n.log2 + 1

/-- The bit length of a value's magnitude. -/
def magnitudeLength (value : Int64) : Nat :=
  bitLength value.toInt.natAbs

/-- The value that an operand reaches through a register. Going through a negative one reaches
the value 0: this is seen where an instruction has since overwritten the register it went
through. -/
def reached (registers : RegisterFile) (inner : Int64) : Int64 :=
  if inner < 0 then 0 else registers.get inner.toInt.toNat

/-- The bit lengths of what an operand touches. -/
def operandWeight (registers : RegisterFile) : Operand → Nat
  | .literal value => magnitudeLength value
  | .direct address =>
      bitLength address.toNat + magnitudeLength (registers.get address.toNat)
  | .indirect address =>
      let inner := registers.get address.toNat
      bitLength address.toNat + magnitudeLength inner + magnitudeLength (reached registers inner)

/-- What an instruction costs on the given registers. -/
def weight (model : Model) (instruction : Instruction) (registers : RegisterFile) : Nat :=
  match instruction.operand? with
  | none => 0
  | some operand =>
      match model with
      | .uniform => 1
      | .logarithmic => operandWeight registers operand

theorem bitLength_pos (n : Nat) : 0 < bitLength n := by
  unfold bitLength
  split <;> omega

end RandomAccess.Cost
