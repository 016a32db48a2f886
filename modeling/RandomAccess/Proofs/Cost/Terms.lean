import Mathlib.Algebra.GroupWithZero.Nat
import RandomAccess.Cost.Weight

/-!
# The terms of a weight

The logarithmic weight of an instruction is a sum of bit lengths, taken along the way from the
number in its operand to the value that the operand comes to. The last of them is that of this
value. They depend on no other registers than those that the operand reads.
-/

namespace RandomAccess

/-- The indices of the registers that an operand reads, in order. -/
def Operand.reads (registers : RegisterFile) : Operand → List Nat
  | literal _ => []
  | direct address => [address.toNat]
  | indirect address => [address.toNat, (registers.get address.toNat).toInt.toNat]

namespace Cost

/-- The bit lengths that an operand is charged, in the order in which it is resolved. -/
def terms (registers : RegisterFile) : Operand → List Nat
  | .literal value => [magnitudeLength value]
  | .direct address => [bitLength address.toNat, magnitudeLength (registers.get address.toNat)]
  | .indirect address =>
      let inner := registers.get address.toNat
      [bitLength address.toNat, magnitudeLength inner, magnitudeLength (reached registers inner)]

variable {a b registers : RegisterFile} {instruction : Instruction} {operand : Operand}
  {value : Int64}

theorem operandWeight_eq_sum_terms (registers : RegisterFile) (operand : Operand) :
    operandWeight registers operand = (terms registers operand).sum := by
  cases operand <;> simp [operandWeight, terms, Nat.add_assoc]

/-- An instruction weighs the terms of its operand. -/
theorem weight_eq_sum_terms (h : instruction.operand? = some operand) (registers : RegisterFile) :
    weight .logarithmic instruction registers = (terms registers operand).sum := by
  rw [← operandWeight_eq_sum_terms, weight, h]

/-- The terms of an operand depend on the registers that it reads, and on no others. -/
theorem terms_congr (operand : Operand)
    (h : ∀ index ∈ operand.reads a, b.get index = a.get index) :
    terms b operand = terms a operand := by
  cases operand with
  | literal value => rfl
  | direct address =>
    have hvalue : b.get address.toNat = a.get address.toNat := h _ (List.mem_singleton.mpr rfl)
    rw [terms, hvalue, terms]
  | indirect address =>
    simp only [Operand.reads, List.forall_mem_cons, List.not_mem_nil, false_implies, implies_true,
      and_true] at h
    simp only [terms, reached, h.1, h.2]

/-- The last term is that of the value to which the operand resolves. -/
theorem getLast?_terms (h : operand.resolve registers = .ok value) :
    (terms registers operand).getLast? = some (magnitudeLength value) := by
  cases operand with
  | literal _ | direct _ =>
    cases h
    rfl
  | indirect address =>
    simp only [Operand.resolve] at h
    split at h
    · cases h
    · next hneg =>
      cases h
      simp only [terms, reached, if_neg hneg]
      rfl

/-- The bit length is the least number of digits that is enough. -/
theorem bitLength_le_iff {number length : Nat} (h : 1 ≤ length) :
    bitLength number ≤ length ↔ number < 2 ^ length := by
  by_cases hzero : number = 0
  · subst hzero
    exact iff_of_true h (Nat.two_pow_pos length)
  · rw [bitLength, if_neg hzero, Nat.succ_le_iff, Nat.log2_lt hzero]

/-- A value has no more than 64 digits. -/
theorem magnitudeLength_le (value : Int64) : magnitudeLength value ≤ 64 := by
  have hmin := value.minValue_le_toInt
  have hmax := value.toInt_le
  rw [Int64.toInt_minValue] at hmin
  rw [Int64.toInt_maxValue] at hmax
  exact (bitLength_le_iff (by decide)).mpr (by omega)

/-- A position is charged as what it is written as: no more than the largest value. -/
theorem operandWeight_position (registers : RegisterFile) (position : UInt64) :
    operandWeight registers (.position position) =
      bitLength (min position.toNat Int64.maxValue.toInt.toNat) := by
  have hlargest : Int64.maxValue.toInt.toNat = 9223372036854775807 := by decide
  rw [Operand.position, operandWeight, magnitudeLength, Int64.toInt_ofNat_of_lt (by omega),
    Int.natAbs_natCast]

end Cost

end RandomAccess
