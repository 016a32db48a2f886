import Mathlib.Algebra.GroupWithZero.Nat
import Mathlib.Order.Bounds.Defs
import RandomAccess.Proofs.Cost.Profile
import RandomAccess.Proofs.Cost.Terms

/-!
# Bounds of weights and totals

A weight is a sum of at most three bit lengths, each of them between 1 and 64. Its additions stay
far below the largest 64-bit number, so a trace costs in the logarithmic model at least what it
costs in the uniform one, and at most 192 times as much. Cutting both totals to the largest amount
keeps them in that order.
-/

namespace RandomAccess.Cost

variable {instruction : Instruction} {registers : RegisterFile} {first second : Nat}

/-- The bit length is the least number of digits, from one on, that is enough. -/
theorem isLeast_bitLength (number : Nat) :
    IsLeast {length | 1 ≤ length ∧ number < 2 ^ length} (bitLength number) := by
  have hpos := bitLength_pos number
  constructor
  · exact ⟨hpos, (bitLength_le_iff hpos).mp (Nat.le_refl _)⟩
  · rintro length ⟨hlength, hlt⟩
    exact (bitLength_le_iff hlength).mpr hlt

/-- An address has no more than 64 digits. -/
theorem bitLength_toNat_le (address : UInt64) : bitLength address.toNat ≤ 64 :=
  (bitLength_le_iff (by decide)).mpr address.toNat_lt

theorem magnitudeLength_pos (value : Int64) : 0 < magnitudeLength value :=
  bitLength_pos _

/-- The sum of two numbers, if it is a 64-bit number. -/
def add? (first second : Nat) : Option Nat :=
  if first + second < UInt64.size then some (first + second) else none

/-- Two or three bit lengths are added without overflow. -/
theorem add?_eq_some (hfirst : first ≤ 128) (hsecond : second ≤ 64) :
    add? first second = some (first + second) := by
  have hsize : UInt64.size = 18446744073709551616 := rfl
  rw [add?, if_pos (by omega)]

/-- The bit lengths of what an operand touches, added one after another as 64-bit numbers. -/
def operandWeight? (registers : RegisterFile) : Operand → Option Nat
  | .literal value => some (magnitudeLength value)
  | .direct address =>
      add? (bitLength address.toNat) (magnitudeLength (registers.get address.toNat))
  | .indirect address => do
      let inner := registers.get address.toNat
      let through ← add? (bitLength address.toNat) (magnitudeLength inner)
      add? through (magnitudeLength (reached registers inner))

/-- What an instruction costs in the logarithmic model, with additions that may overflow. -/
def weight? (instruction : Instruction) (registers : RegisterFile) : Option Nat :=
  match instruction.operand? with
  | none => some 0
  | some operand => operandWeight? registers operand

/-- No addition in the weight of an operand overflows. -/
theorem operandWeight?_eq_some (registers : RegisterFile) (operand : Operand) :
    operandWeight? registers operand = some (operandWeight registers operand) := by
  cases operand with
  | literal value => rfl
  | direct address =>
    have haddress := bitLength_toNat_le address
    exact add?_eq_some (by omega) (magnitudeLength_le _)
  | indirect address =>
    have haddress := bitLength_toNat_le address
    have hinner := magnitudeLength_le (registers.get address.toNat)
    have hthrough := add?_eq_some (Nat.le_trans haddress (by decide)) hinner
    simp only [operandWeight?, operandWeight, hthrough, Option.bind_eq_bind, Option.bind_some]
    exact add?_eq_some (by omega) (magnitudeLength_le _)

theorem weight?_eq_some (instruction : Instruction) (registers : RegisterFile) :
    weight? instruction registers = some (weight .logarithmic instruction registers) := by
  unfold weight? weight
  cases instruction.operand? with
  | none => rfl
  | some operand => exact operandWeight?_eq_some registers operand

/-- An operand touches at least one number, and at most an address and two values. -/
theorem operandWeight_bounds (registers : RegisterFile) (operand : Operand) :
    1 ≤ operandWeight registers operand ∧ operandWeight registers operand ≤ 192 := by
  cases operand with
  | literal value =>
    have hpos := magnitudeLength_pos value
    have hvalue := magnitudeLength_le value
    rw [operandWeight]
    omega
  | direct address =>
    have hpos := bitLength_pos address.toNat
    have haddress := bitLength_toNat_le address
    have hvalue := magnitudeLength_le (registers.get address.toNat)
    rw [operandWeight]
    omega
  | indirect address =>
    have hpos := bitLength_pos address.toNat
    have haddress := bitLength_toNat_le address
    have hinner := magnitudeLength_le (registers.get address.toNat)
    have hvalue := magnitudeLength_le (reached registers (registers.get address.toNat))
    rw [operandWeight]
    omega

/-- Every instruction with an operand weighs between 1 and 192, whatever the registers hold. -/
theorem weight_bounds (h : instruction ≠ .halt) (registers : RegisterFile) :
    1 ≤ weight .logarithmic instruction registers ∧
      weight .logarithmic instruction registers ≤ 192 := by
  unfold weight
  cases hoperand : instruction.operand? with
  | none => exact absurd (Instruction.operand?_eq_none_iff.mp hoperand) h
  | some operand => exact operandWeight_bounds registers operand

/-- The two models charge nothing for `HALT`, and else 1 and a number between 1 and 192. -/
theorem weight_dominates (instruction : Instruction) (registers : RegisterFile) :
    weight .uniform instruction registers ≤ weight .logarithmic instruction registers ∧
      weight .logarithmic instruction registers ≤ 192 * weight .uniform instruction registers := by
  by_cases h : instruction = .halt
  · subst h
    exact ⟨Nat.le_refl 0, Nat.le_refl 0⟩
  · rw [weight_uniform, if_neg h]
    exact weight_bounds h registers

/-- The exact totals of a trace are in the same order as the weights of its steps. -/
theorem sum_weight_dominates (trace : List Step) :
    let total (model : Model) :=
      (trace.map fun step => weight model step.instruction step.registers).sum
    total .uniform ≤ total .logarithmic ∧ total .logarithmic ≤ 192 * total .uniform := by
  induction trace with
  | nil => exact ⟨Nat.le_refl 0, Nat.le_refl 0⟩
  | cons step trace ih =>
    have hstep := weight_dominates step.instruction step.registers
    simp only [List.map_cons, List.sum_cons] at ih ⊢
    omega

/-- Weights are bounded and dominate the uniform model: an instruction other than `HALT` weighs
between 1 and 192, and a position weighs what it is written as. -/
theorem weights_are_bounded (number : Nat) (registers : RegisterFile) (trace : List Step) :
    IsLeast {length | 1 ≤ length ∧ number < 2 ^ length} (bitLength number) ∧
      (∀ instruction : Instruction, instruction ≠ .halt →
        1 ≤ weight .logarithmic instruction registers ∧
          weight .logarithmic instruction registers ≤ 192) ∧
      (∀ instruction : Instruction,
        weight? instruction registers = some (weight .logarithmic instruction registers)) ∧
      (∀ (instruction : Instruction) (position : UInt64),
        instruction = .jump position ∨ (∃ condition, instruction = .branch condition position) ∨
            instruction = .store (.literal position) ∨ instruction = .read (.literal position) →
          weight .logarithmic instruction registers =
            bitLength (min position.toNat (2 ^ 63 - 1))) ∧
      (analyze trace).uniform ≤ (analyze trace).logarithmic ∧
      (analyze trace).logarithmic ≤ 192 * (analyze trace).uniform := by
  refine ⟨isLeast_bitLength number, fun instruction h => weight_bounds h registers,
    fun instruction => weight?_eq_some instruction registers, fun instruction position h => ?_, ?_⟩
  · have hoperand : instruction.operand? = some (.position position) := by
      rcases h with h | ⟨condition, h⟩ | h | h <;> exact congrArg Instruction.operand? h
    rw [weight, hoperand]
    exact operandWeight_position registers position
  · have htotals := sum_weight_dominates trace
    rw [uniform_analyze, ← sum_weight_uniform, logarithmic_analyze]
    -- both totals are cut to the same amount
    dsimp only at htotals
    omega

/-- The largest position weighs as much as the largest value. The accumulator was overwritten with a
negative value, through which nothing is reached. -/
theorem weights_are_bounded_clamped :
    let registers := (RegisterFile.withCapacity 1).load (-4)
    let load : Step := ⟨1, .load (.indirect 0), registers⟩
    let jump : Step := ⟨2, .jump 18446744073709551615, registers⟩
    (jump.instruction ≠ .halt ∧ 1 ≤ weight .logarithmic jump.instruction registers) ∧
      weight .logarithmic jump.instruction registers = bitLength 9223372036854775807 ∧
      weight? load.instruction registers = some 5 ∧
      (analyze [load, jump]).uniform = 2 ∧ (analyze [load, jump]).logarithmic = 68 ∧
      (analyze [load, jump]).logarithmic ≤ 192 * 2 := by
  intro registers load jump
  have hjump : jump.instruction ≠ .halt := by decide
  have huniform : (analyze [load, jump]).uniform = 2 := by decide
  have hlogarithmic : (analyze [load, jump]).logarithmic = 68 := by decide
  have hload : weight .logarithmic load.instruction registers = 5 := by decide
  have hlargest : min (18446744073709551615 : UInt64).toNat (2 ^ 63 - 1) = 9223372036854775807 := by
    decide
  obtain ⟨-, hweights, hadded, hpositions, -, htotal⟩ :=
    weights_are_bounded 0 registers [load, jump]
  have hposition := hpositions jump.instruction _ (.inl rfl)
  have hsum := hadded load.instruction
  rw [hlargest] at hposition
  rw [hload] at hsum
  rw [huniform] at htotal
  exact ⟨⟨hjump, (hweights _ hjump).1⟩, hposition, hsum, huniform, hlogarithmic, htotal⟩

end RandomAccess.Cost
