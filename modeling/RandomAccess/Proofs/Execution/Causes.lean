import RandomAccess.Proofs.Execution.Refinement

/-!
# Causes of faults

Each kind of fault is met by instructions of one family, for one reason. What a fault says is read
back from the state in which it was met, whether or not storage could be had.
-/

namespace RandomAccess

namespace State

variable {state : State} {program : Program} {instruction : Instruction} {fault : Fault}

/-- Why an instruction meets a fault. The last three are no faults of instructions. -/
def Cause (state : State) (instruction : Instruction) : Fault → Prop
  | .divisionByZero => ∃ operand, instruction = .arith .div operand ∧
      operand.resolve state.registers = .ok 0
  | .arithmeticOverflow mnemonic => ∃ op operand value number, instruction = .arith op operand ∧
      mnemonic = instruction.mnemonic ∧ operand.resolve state.registers = .ok value ∧
      Ram.Computes op state.registers.accumulator.toInt value.toInt number ∧
      ¬ Ram.Representable number
  | .negativeAddress value => ∃ address, instruction.source? = some (.indirect address) ∧
      state.registers.get address.toNat = value ∧ value < 0
  | .inputExhausted consumed => (∃ target, instruction = .read target) ∧ state.input = [] ∧
      consumed = state.consumed
  | .registerLimit index limit => ∃ target,
      (instruction = .store target ∨ instruction = .read target) ∧ index = target.address ∧
      limit = state.registers.limit ∧ ¬ state.registers.admits index = true
  | .invalidProgramCounter _ _ | .stepLimitExceeded _ | .notRunning => False

/-- An instruction meets a fault for its cause. -/
theorem Meets.cause (h : state.Meets instruction fault) : state.Cause instruction fault := by
  cases h with
  | source hsource hresolve =>
    obtain ⟨address, rfl, hneg, rfl⟩ := resolve_eq_error_iff.mp hresolve
    refine ⟨address, hsource, (Int64.ofInt_toInt _).symm, ?_⟩
    rw [Int64.lt_iff_toInt_lt, ram, Int64.ofInt_toInt]
    exact hneg
  | @result op operand _ _ hresolve happly =>
    rcases (ArithOp.apply_eq_error_iff operand).mp happly with
      ⟨rfl, rfl, rfl⟩ | ⟨number, hresult, hrep, rfl⟩
    · exact ⟨operand, rfl, hresolve⟩
    · exact ⟨op, operand, _, number, rfl, rfl, hresolve, hresult, hrep⟩
  | tape hinput => exact ⟨⟨_, rfl⟩, hinput, rfl⟩
  | store hrefused => exact ⟨_, .inl rfl, rfl, rfl, hrefused⟩
  | read _ hrefused => exact ⟨_, .inr rfl, rfl, rfl, hrefused⟩

/-- Coming to a limit of steps is no fault of a step. -/
theorem Fails.ne_stepLimitExceeded (h : state.Fails program fault) (limit : Nat) :
    fault ≠ .stepLimitExceeded limit := by
  rintro rfl
  cases h with
  | refused _ hmeets => exact hmeets.cause

/-- The program counter is lost where no instruction stands. -/
theorem Fails.of_invalidProgramCounter {position size : Nat}
    (h : state.Fails program (.invalidProgramCounter position size)) :
    program.get? state.counter = none := by
  cases h with
  | outside hget => exact hget
  | refused _ hmeets => exact hmeets.cause.elim

/-- Input is asked for where none is left, and the fault tells how much was taken before. -/
theorem Fails.of_inputExhausted {consumed : Nat}
    (h : state.Fails program (.inputExhausted consumed)) :
    state.input = [] ∧ consumed = state.consumed := by
  cases h with
  | refused _ hmeets => exact hmeets.cause.2

end State

end RandomAccess
