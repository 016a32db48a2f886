import RandomAccess.Proofs.Cost.Terms
import RandomAccess.Proofs.Memory.History
import RandomAccess.Proofs.Trace.Footprint

/-!
# What a recorded step is charged for

A step is weighed on the registers that it has left, not on those that it has read, and its operand
is resolved a second time there. Only where the instruction has written a register that its operand
reads do the two differ. A value that was sent, or that was taken without going through the
accumulator, is charged as it was resolved; a register that was written is charged with its new
value; and no operand goes through a negative register but by way of the accumulator that its own
instruction has overwritten.
-/

namespace RandomAccess

/-- What the record of a step is charged for, told by the states before and after the step. -/
structure Step.Charges (step : Step) (before after : State) : Prop where
  /-- The record weighs what the live registers weigh after the step. -/
  live : Cost.weight .logarithmic step.instruction step.registers =
    Cost.weight .logarithmic step.instruction after.registers
  /-- This is the sum of the terms of the instruction's operand. -/
  terms : ∀ {operand}, step.instruction.operand? = some operand →
    Cost.weight .logarithmic step.instruction step.registers =
      (Cost.terms step.registers operand).sum
  /-- A value that is sent, or is taken from an operand that does not read register 0, is charged
  as it was resolved, together with what was gone through for it. -/
  resolved : ∀ {operand}, step.instruction.source? = some operand →
    step.instruction = .write operand ∨ 0 ∉ operand.reads before.registers →
    Cost.weight .logarithmic step.instruction step.registers =
        Cost.weight .logarithmic step.instruction before.registers ∧
      ∃ value, operand.resolve before.registers = .ok value ∧
        (Cost.terms step.registers operand).getLast? = some (Cost.magnitudeLength value)
  /-- Jumps and targets in literal mode weigh the same before and after. -/
  literal : ∀ {position}, step.instruction = .jump position ∨
      (∃ condition, step.instruction = .branch condition position) ∨
      step.instruction = .store (.literal position) ∨
      step.instruction = .read (.literal position) →
    Cost.weight .logarithmic step.instruction step.registers =
      Cost.weight .logarithmic step.instruction before.registers
  /-- A target in direct mode is charged the accumulator that was stored in it. -/
  stored : ∀ {address}, step.instruction = .store (.direct address) →
    (Cost.terms step.registers (.direct address)).getLast? =
      some (Cost.magnitudeLength before.registers.accumulator)
  /-- Or it is charged the input value that was read into it. -/
  received : ∀ {address}, step.instruction = .read (.direct address) →
    ∃ value ∈ before.input.head?, (Cost.terms step.registers (.direct address)).getLast? =
      some (Cost.magnitudeLength value)
  /-- A negative register that an operand seems to have gone through is the accumulator, with the
  result of the instruction. -/
  overwritten : ∀ {address}, step.instruction.operand? = some (.indirect address) →
    step.registers.get address.toNat < 0 →
    address = 0 ∧ (step.instruction = .load (.indirect 0) ∨
      ∃ op, step.instruction = .arith op (.indirect 0))

namespace Instruction

variable {instruction : Instruction} {operand : Operand}

/-- An instruction that takes a value from an operand names no register to be written. -/
theorem written?_of_source? (h : instruction.source? = some operand) :
    instruction.written? = none := by
  cases instruction with
  | load _ | arith _ _ | write _ => rfl
  | store _ | jump _ | branch _ _ | read _ | halt => cases h

/-- Only for its value an operand goes through a register. -/
theorem source?_of_indirect {address : UInt64}
    (h : instruction.operand? = some (.indirect address)) :
    instruction.source? = some (.indirect address) := by
  cases instruction with
  | load _ | arith _ _ | write _ => exact h
  | store target | read target => cases target <;> cases h
  | jump _ | branch _ _ | halt => cases h

/-- A position weighs the same on all registers. -/
theorem weight_of_position {position : UInt64}
    (h : instruction.operand? = some (.position position)) (a b : RegisterFile) :
    Cost.weight .logarithmic instruction a = Cost.weight .logarithmic instruction b := by
  simp only [Cost.weight, h, Cost.operandWeight_position]

end Instruction

namespace State

variable {state after : State} {program : Program} {instruction : Instruction} {effect : Effect}
  {operand : Operand} {step : Step}

/-- An operand from which a value is taken was resolved. -/
theorem Yields.resolve_source (h : state.Yields instruction effect)
    (hsource : instruction.source? = some operand) :
    ∃ value, operand.resolve state.registers = .ok value := by
  cases h with
  | load hvalue | arith hvalue _ | write hvalue =>
    cases hsource
    exact ⟨_, hvalue⟩
  | store | jump | taken | untaken | read | halt => cases hsource

/-- What is taken from an operand is sent, or changes no register but the accumulator. -/
theorem Yields.get_update_of_source (h : state.Yields instruction effect)
    (hw : state.registers.WellFormed) (hsource : instruction.source? = some operand) {index : Nat}
    (hkept : instruction = .write operand ∨ index ≠ 0) :
    (effect.update state.registers).get index = state.registers.get index := by
  rcases hkept with rfl | hzero
  · cases h with
    | write => rfl
  · refine h.get_update_of_ne hw hzero ?_
    rw [Instruction.written?_of_source? hsource]
    exact (Option.some_ne_none index).symm

/-- A step records the registers that it leaves. -/
theorem get_of_step (hstep : state.step program = (.ok step, after))
    (hw : state.registers.WellFormed) (index : Nat) :
    step.registers.get index = after.registers.get index := by
  have hafter := wellFormed_of_step hstep hw
  obtain ⟨-, _, _, -, -, rfl, rfl⟩ := step_eq_ok_iff.mp hstep
  exact hafter.get_snapshot index

/-- The record of a step from which a value was taken tells the registers that were read. -/
theorem get_of_source (hstep : state.step program = (.ok step, after))
    (hw : state.registers.WellFormed) (hsource : step.instruction.source? = some operand)
    {index : Nat} (hkept : step.instruction = .write operand ∨ index ≠ 0) :
    step.registers.get index = state.registers.get index := by
  rw [get_of_step hstep hw]
  obtain ⟨-, instruction, effect, -, hyields, rfl, rfl⟩ := step_eq_ok_iff.mp hstep
  rw [registers_perform]
  exact hyields.get_update_of_source hw hsource hkept

/-- An operand does not go through a negative register. -/
theorem not_neg_of_resolve {registers : RegisterFile} {address : UInt64} {value : Int64}
    (h : (Operand.indirect address).resolve registers = .ok value) :
    ¬ registers.get address.toNat < 0 := by
  intro hneg
  simp only [Operand.resolve, if_pos hneg] at h
  cases h

/-- The record of a step charges what the step has moved. -/
theorem charges_of_step (hstep : state.step program = (.ok step, after))
    (hw : state.registers.WellFormed) : step.Charges state after := by
  have hlive := get_of_step hstep hw
  have hkept {operand : Operand} (hsource : step.instruction.source? = some operand)
      {index : Nat} (h : step.instruction = .write operand ∨ index ≠ 0) :=
    get_of_source hstep hw hsource h
  have hafter := wellFormed_of_step hstep hw
  obtain ⟨-, instruction, effect, -, hyields, rfl, rfl⟩ := step_eq_ok_iff.mp hstep
  refine ⟨Cost.weight_congr hlive _ _, fun h => Cost.weight_eq_sum_terms h _, ?_, ?_, ?_, ?_, ?_⟩
  · intro operand hsource hspares
    have hoperand := Instruction.operand?_of_source? hsource
    obtain ⟨value, hvalue⟩ := hyields.resolve_source hsource
    have hterms := Cost.terms_congr operand fun index hindex =>
      hkept hsource (hspares.imp_right fun hnot hzero => hnot (hzero ▸ hindex))
    refine ⟨?_, value, hvalue, ?_⟩
    · rw [Cost.weight_eq_sum_terms hoperand, hterms, Cost.weight_eq_sum_terms hoperand]
    · rw [hterms]
      exact Cost.getLast?_terms hvalue
  · intro position h
    have hoperand : instruction.operand? = some (.position position) := by
      rcases h with h | ⟨condition, h⟩ | h | h <;> exact congrArg Instruction.operand? h
    exact Instruction.weight_of_position hoperand _ _
  · intro address h
    obtain rfl : instruction = .store (.direct address) := h
    cases hyields with
    | store hadmits =>
      have hvalue := RegisterFile.get_write_self state.registers.accumulator hw.capacity_pos
        (RegisterFile.lt_limit_of_admits hadmits)
      exact Cost.getLast?_terms (congrArg Except.ok ((hlive _).trans hvalue))
  · intro address h
    obtain rfl : instruction = .read (.direct address) := h
    cases hyields with
    | @read _ value rest hinput hadmits =>
      have hvalue := RegisterFile.get_write_self value hw.capacity_pos
        (RegisterFile.lt_limit_of_admits hadmits)
      refine ⟨value, ?_, Cost.getLast?_terms (congrArg Except.ok ((hlive _).trans hvalue))⟩
      rw [hinput]
      rfl
  · intro address hoperand hneg
    have hsource := Instruction.source?_of_indirect hoperand
    obtain ⟨value, hvalue⟩ := hyields.resolve_source hsource
    -- the register was not negative before, so the step has changed it
    have hchanged : ¬ (instruction = .write (.indirect address) ∨ address.toNat ≠ 0) := by
      intro h
      rw [hkept hsource h] at hneg
      exact not_neg_of_resolve hvalue hneg
    rw [not_or, not_not] at hchanged
    obtain rfl : address = 0 := UInt64.toNat_inj.mp hchanged.2
    refine ⟨rfl, ?_⟩
    cases hyields with
    | load =>
      cases hsource
      exact .inl rfl
    | arith =>
      cases hsource
      exact .inr ⟨_, rfl⟩
    | write =>
      cases hsource
      exact absurd rfl hchanged.1
    | store | jump | taken | untaken | read | halt => cases hsource

end State

end RandomAccess
